import Mathlib.Data.List.Nodup
import Mathlib.Data.List.Perm.Basic
import Asdl.Grammar.Group
import Asdl.Proofs.Index

/-! The grouping of productions. Each head type has one group, with its productions in their order,
and the groups stand in the order in which their heads first occur. A table keeps to that, and its
slots point to the groups, whatever production is added. -/
namespace Asdl

lemma nodup_eraseDups {α : Type} [BEq α] [LawfulBEq α] : ∀ l : List α, l.eraseDups.Nodup
  | [] => by simp
  | a :: rest => by
    rw [List.eraseDups_cons, List.nodup_cons, List.mem_eraseDups]
    exact ⟨by simp, nodup_eraseDups _⟩
termination_by l => l.length
decreasing_by exact Nat.lt_succ_of_le (List.length_filter_le _ rest)

/-- One more item is a first occurrence unless it is among those before it. -/
lemma eraseDups_concat {α : Type} [BEq α] [LawfulBEq α] [DecidableEq α] (l : List α) (a : α) :
    (l ++ [a]).eraseDups = if a ∈ l then l.eraseDups else l.eraseDups ++ [a] := by
  rw [List.eraseDups_append]
  by_cases h : a ∈ l <;> simp [List.removeAll, h, List.eraseDups_cons]

/-- Whether groups are those of a list of productions: one for each name of a head, in the order of
first occurrence, with the productions of that name in their order. -/
structure Grouping (groups : List Group) (ps : List Production) : Prop where
  names : groups.map (·.head.name) = (ps.map (·.head.name)).eraseDups
  productions : ∀ group ∈ groups,
    group.productions = ps.filter (·.head.name = group.head.name)
  head : ∀ group ∈ groups, ∃ p ∈ ps, p.head = group.head
  perm : (groups.flatMap Group.productions).Perm ps

namespace Grouping
variable {groups before after : List Group} {group : Group} {ps : List Production} {p : Production}

lemma nil : Grouping [] [] := ⟨rfl, by simp, by simp, .nil⟩

lemma mem_names (h : Grouping groups ps) {name : String} :
    name ∈ groups.map (·.head.name) ↔ name ∈ ps.map (·.head.name) := by
  rw [h.names, List.mem_eraseDups]

lemma nodup_names (h : Grouping groups ps) : (groups.map (·.head.name)).Nodup :=
  h.names ▸ nodup_eraseDups _

/-- A production of another head does not belong to a group. -/
lemma productions_of_ne (h : Grouping groups ps) (hgroup : group ∈ groups)
    (hne : group.head.name ≠ p.head.name) :
    group.productions = (ps ++ [p]).filter (·.head.name = group.head.name) := by
  simp [h.productions group hgroup, hne.symm]

lemma exists_head_eq (h : Grouping groups ps) (hgroup : group ∈ groups) (p : Production) :
    ∃ q ∈ ps ++ [p], q.head = group.head := by
  obtain ⟨q, hq, he⟩ := h.head group hgroup
  exact ⟨q, List.mem_append_left _ hq, he⟩

lemma join (h : Grouping (before ++ group :: after) ps) (hname : group.head.name = p.head.name) :
    Grouping (before ++ ⟨group.head, group.productions ++ [p]⟩ :: after) (ps ++ [p]) := by
  have hold : p.head.name ∈ ps.map (·.head.name) := by
    rw [← h.mem_names, ← hname]
    simp
  -- heads have different names, so this is the only group that the production can join
  have hother : ∀ other, other ∈ before ∨ other ∈ after → other.head.name ≠ p.head.name := by
    have hdistinct := h.nodup_names
    rw [List.map_append, List.map_cons, List.nodup_middle, List.nodup_cons,
      ← List.map_append] at hdistinct
    intro other hmem he
    exact hdistinct.1 (List.mem_map.2 ⟨other, List.mem_append.2 hmem, he.trans hname.symm⟩)
  constructor
  case names =>
    have hnames := h.names
    rw [List.map_append, List.map_cons] at hnames
    rw [List.map_append, List.map_cons, hnames, List.map_append, List.map_singleton,
      eraseDups_concat, if_pos hold]
  case productions =>
    intro other hmem
    obtain hmem | rfl | hmem : other ∈ before ∨ other = _ ∨ other ∈ after := by simpa using hmem
    · exact h.productions_of_ne (by simp [hmem]) (hother other (.inl hmem))
    · simp [h.productions group (by simp), hname]
    · exact h.productions_of_ne (by simp [hmem]) (hother other (.inr hmem))
  case head =>
    intro other hmem
    obtain hmem | rfl | hmem : other ∈ before ∨ other = _ ∨ other ∈ after := by simpa using hmem
    · exact h.exists_head_eq (by simp [hmem]) p
    · have hgroup : group ∈ before ++ group :: after := by simp
      exact h.exists_head_eq hgroup p
    · exact h.exists_head_eq (by simp [hmem]) p
  case perm =>
    have hperm := h.perm.append_right [p]
    simp only [List.flatMap_append, List.flatMap_cons, List.append_assoc] at hperm ⊢
    exact ((List.perm_append_comm.append_left _).append_left _).trans hperm

lemma openBehind (h : Grouping groups ps)
    (hfresh : ∀ group ∈ groups, group.head.name ≠ p.head.name) :
    Grouping (groups ++ [⟨p.head, [p]⟩]) (ps ++ [p]) := by
  have hnew : p.head.name ∉ ps.map (·.head.name) := by
    rw [← h.mem_names]
    simpa using hfresh
  have hnone : ps.filter (·.head.name = p.head.name) = [] := by
    simpa using hnew
  constructor
  case names =>
    rw [List.map_append, List.map_append, h.names, List.map_singleton, List.map_singleton,
      eraseDups_concat, if_neg hnew]
  case productions =>
    intro other hmem
    obtain hmem | rfl : other ∈ groups ∨ other = _ := by simpa using hmem
    · exact h.productions_of_ne hmem (hfresh other hmem)
    · simp [hnone]
  case head =>
    intro other hmem
    obtain hmem | rfl : other ∈ groups ∨ other = _ := by simpa using hmem
    · exact h.exists_head_eq hmem p
    · exact ⟨p, by simp, rfl⟩
  case perm => simpa using h.perm.append_right [p]

end Grouping

namespace GroupTable
variable {table : GroupTable} {head : Ty} {p : Production} {ps : List Production} {slot : ℕ}

lemma slotFor_of_some (h : table.slots.get? head.name = some slot) :
    table.slotFor head = ⟨table, slot, table.slots_within.lt h⟩ := by
  unfold slotFor
  split
  · next found =>
    cases h.symm.trans found
    rfl
  · next found => cases h.symm.trans found

lemma slotFor_of_none (h : table.slots.get? head.name = none) :
    (table.slotFor head).1.groups = table.groups ++ [⟨head, []⟩] ∧
    (table.slotFor head).1.slots = table.slots.insert head.name table.groups.length ∧
    (table.slotFor head).2.val = table.groups.length := by
  unfold slotFor
  split
  · next found => cases h.symm.trans found
  · exact ⟨rfl, rfl, rfl⟩

/-- A production of a head that has a slot goes to the end of the group there. -/
lemma add_of_some (h : table.slots.get? p.head.name = some slot) :
    ∃ before group after, table.groups = before ++ group :: after ∧ before.length = slot ∧
      (table.add p).groups = before ++ ⟨group.head, group.productions ++ [p]⟩ :: after ∧
      (table.add p).slots = table.slots := by
  have hslot := table.slots_within.lt h
  refine ⟨table.groups.take slot, table.groups[slot], table.groups.drop (slot + 1), ?_, ?_, ?_, ?_⟩
  · simp
  · exact List.length_take_of_le (Nat.le_of_lt hslot)
  · rw [add, slotFor_of_some h]
    simp [List.set_eq_take_append_cons_drop, hslot]
  · rw [add, slotFor_of_some h]

/-- A production of another head opens a group, and the slot of that group is stored. -/
lemma add_of_none (h : table.slots.get? p.head.name = none) :
    (table.add p).groups = table.groups ++ [⟨p.head, [p]⟩] ∧
      (table.add p).slots = table.slots.insert p.head.name table.groups.length := by
  obtain ⟨hgroups, hslots, hslot⟩ := slotFor_of_none h
  simp [add, hgroups, hslots, hslot]

/-- Whether a table has the groups of a list of productions, and each slot is that of a group. -/
structure Holds (table : GroupTable) (ps : List Production) : Prop where
  grouping : Grouping table.groups ps
  slots : table.slots.Locates (·.head.name) table.groups

lemma holds_empty : empty.Holds [] := ⟨.nil, .empty _⟩

/-- What one more production keeps. -/
lemma Holds.add (h : table.Holds ps) (p : Production) : (table.add p).Holds (ps ++ [p]) := by
  cases hslot : table.slots.get? p.head.name with
  | some slot =>
    obtain ⟨before, group, after, hgroups, rfl, hadd, hslots⟩ := add_of_some hslot
    have hgrouping := h.grouping
    have hlocates := h.slots
    rw [hgroups] at hgrouping hlocates
    have hname : group.head.name = p.head.name := by
      obtain ⟨other, hother, hname⟩ := (hlocates _ _).1 hslot
      obtain rfl : group = other := by simpa using hother
      exact hname
    refine ⟨hadd ▸ hgrouping.join hname, ?_⟩
    rw [hslots, hadd]
    exact hlocates.congr (by simp)
  | none =>
    obtain ⟨hadd, hslots⟩ := add_of_none hslot
    have hfresh : ∀ group ∈ table.groups, group.head.name ≠ p.head.name := by
      simpa using h.slots.get?_eq_none.1 hslot
    refine ⟨hadd ▸ h.grouping.openBehind hfresh, ?_⟩
    rw [hslots, hadd]
    exact h.slots.concat (a := ⟨p.head, [p]⟩) hslot

end GroupTable

end Asdl
