import Asdl.Proofs.Grammar.Ids
import Asdl.Proofs.Grammar.Lookup

/-! The groups of a grammar. Each head type has one, with its productions in the order of
declaration, and the indexes lead to the groups and to the declared productions. What is found by
head type, by constructor and by id agrees with that. -/
namespace Asdl.Grammar
variable {g : Grammar}

lemma grouping (g : Grammar) : Grouping g.groups g.declared := g.indexed.groups.grouping

lemma locates_groups (g : Grammar) : g.slots.Locates (·.head.name) g.groups :=
  g.indexed.groups.slots

lemma mem_declared_of_mem_group {group : Group} (hgroup : group ∈ g.groups) {p : Production}
    (hp : p ∈ group.productions) : p ∈ g.declared := by
  rw [g.grouping.productions group hgroup] at hp
  exact List.mem_of_mem_filter hp

lemma productions_ne_nil {group : Group} (hgroup : group ∈ g.groups) :
    group.productions ≠ [] := by
  obtain ⟨p, hp, hhead⟩ := g.grouping.head group hgroup
  rw [g.grouping.productions group hgroup]
  exact List.ne_nil_of_mem (List.mem_filter.2 ⟨hp, by simp [hhead]⟩)

/-- The productions of a group have its head, and not only a head of that name. -/
lemma head_eq_of_mem_group {group : Group} (hgroup : group ∈ g.groups) {p : Production}
    (hp : p ∈ group.productions) : p.head = group.head := by
  rw [g.grouping.productions group hgroup, List.mem_filter, decide_eq_true_eq] at hp
  obtain ⟨q, hq, he⟩ := g.grouping.head group hgroup
  have hphead : g.Declares p.head := ⟨p, hp.1, p.mentions_head⟩
  have hqhead : g.Declares group.head := ⟨q, hq, he ▸ q.mentions_head⟩
  exact hphead.eq_of_name hqhead hp.2

lemma root_eq_head_group (g : Grammar) : g.groups.head?.map Group.head = some g.root := by
  obtain ⟨p, rest, hdeclared⟩ := List.exists_cons_of_ne_nil g.declared_ne_nil
  have hroot : g.root = p.head := by simp [root, hdeclared]
  have hnames := g.grouping.names
  rw [hdeclared, List.map_cons, List.eraseDups_cons] at hnames
  cases hgroups : g.groups with
  | nil => simp [hgroups] at hnames
  | cons group others =>
    rw [hgroups, List.map_cons] at hnames
    have hgroup : group ∈ g.groups := by simp [hgroups]
    have hp : p ∈ group.productions := by
      rw [g.grouping.productions group hgroup]
      simp [hdeclared, (List.cons.inj hnames).1]
    simp [hroot, head_eq_of_mem_group hgroup hp]

/-- The group at the stored slot, or else no slot and no group. -/
lemma lookup_cases (g : Grammar) (head : String) :
    (∃ group ∈ g.groups, group.head.name = head ∧ g.lookup head = .ok group.productions) ∨
      head ∉ g.groups.map (·.head.name) ∧ g.lookup head = .error (.unknownType head) := by
  unfold lookup
  split
  · next slot found =>
    have hslot := g.slots_within.lt found
    exact .inl ⟨_, List.getElem_mem hslot, g.locates_groups.key_getElem found hslot, rfl⟩
  · next hnone => exact .inr ⟨g.locates_groups.get?_eq_none.1 hnone, rfl⟩

/-- A group is found by the name of its head, and else there is no production of that head. -/
lemma lookup_eq (g : Grammar) (head : String) :
    g.lookup head = if ∃ p ∈ g.declared, p.head.name = head
      then .ok (g.declared.filter (·.head.name = head)) else .error (.unknownType head) := by
  have hmem : head ∈ g.groups.map (·.head.name) ↔ ∃ p ∈ g.declared, p.head.name = head :=
    g.grouping.mem_names.trans List.mem_map
  obtain ⟨group, hgroup, rfl, hfound⟩ | ⟨hnone, hfound⟩ := g.lookup_cases head
  · rw [hfound, if_pos (hmem.1 (List.mem_map_of_mem hgroup)), g.grouping.productions group hgroup]
  · rw [hfound, if_neg fun h => hnone (hmem.2 h)]

lemma lookup_eq_ok {head : String} {ps : List Production} : g.lookup head = .ok ps ↔
    (∃ p ∈ g.declared, p.head.name = head) ∧ ps = g.declared.filter (·.head.name = head) := by
  rw [lookup_eq]
  by_cases h : ∃ p ∈ g.declared, p.head.name = head
  · rw [if_pos h, and_iff_right h, Except.ok.injEq, eq_comm]
  · rw [if_neg h]
    exact ⟨nofun, fun hall => absurd hall.1 h⟩

lemma lookup_head {group : Group} (hgroup : group ∈ g.groups) :
    g.lookup group.head.name = .ok group.productions := by
  rw [lookup_eq_ok, g.grouping.productions group hgroup]
  obtain ⟨p, hp, hhead⟩ := g.grouping.head group hgroup
  exact ⟨⟨p, hp, by rw [hhead]⟩, rfl⟩

lemma lookup_eq_error {head : String} {e : Error} : g.lookup head = .error e ↔
    (∀ p ∈ g.declared, p.head.name ≠ head) ∧ e = .unknownType head := by
  rw [lookup_eq]
  by_cases h : ∃ p ∈ g.declared, p.head.name = head
  · rw [if_pos h]
    obtain ⟨p, hp, he⟩ := h
    exact ⟨nofun, fun hall => absurd he (hall.1 p hp)⟩
  · rw [if_neg h]
    push Not at h
    rw [and_iff_right h, Except.error.injEq, eq_comm]

/-- No other production declares the constructor of a production. -/
lemma filter_name_eq_singleton {c : String} {p : Production} :
    g.declared.filter (·.name = c) = [p] ↔ p ∈ g.declared ∧ p.name = c := by
  have hmem (q : Production) :
      q ∈ g.declared.filter (·.name = c) ↔ q ∈ g.declared ∧ q.name = c := by
    simp
  constructor
  · intro h
    rw [← hmem, h, List.mem_singleton]
  · rintro ⟨hp, rfl⟩
    have hdistinct : (g.declared.filter (·.name = p.name)).Nodup := g.nodup_names.of_map.filter _
    have hone := List.perm_ext_iff_of_nodup hdistinct (List.nodup_singleton p)
    refine List.perm_singleton.1 (hone.2 fun q => ?_)
    rw [hmem, List.mem_singleton]
    constructor
    · rintro ⟨hq, he⟩
      exact List.inj_on_of_nodup_map g.nodup_names hq hp he
    · rintro rfl
      exact ⟨hp, rfl⟩

/-- Whether an answer is the right one to a question for the productions of a head type: those that
are declared for it, in their order, or that the type is unknown. -/
def IsAnswerFor (g : Grammar) (head : String) (answer : Result (List Production)) : Prop :=
  (∀ ps, answer = .ok ps ↔
    (∃ p ∈ g.declared, p.head.name = head) ∧ ps = g.declared.filter (·.head.name = head)) ∧
  ∀ e, answer = .error e ↔ (∀ p ∈ g.declared, p.head.name ≠ head) ∧ e = .unknownType head

/-- The groups and the questions that they answer. A group is what is declared for a head type, and
the first one that of the root; each stored slot is that of a group, and each stored position that
of a declared production; and a constructor leads to its production, from there to the group of its
head and to its id. -/
theorem groups_and_lookups (g : Grammar) :
    (g.groups.map (·.head.name) = (g.declared.map (·.head.name)).eraseDups ∧
      (g.groups.map (·.head.name)).Nodup ∧
      (∀ group ∈ g.groups,
        group.productions = g.declared.filter (·.head.name = group.head.name) ∧
        ∀ p ∈ group.productions, p.head = group.head) ∧
      g.groups.head?.map Group.head = some g.root ∧
      (g.groups.flatMap Group.productions).Perm g.declared) ∧
    ((∀ name slot, g.slots.get? name = some slot ↔
        ∃ group, g.groups[slot]? = some group ∧ group.head.name = name) ∧
      ∀ name position, g.positions.get? name = some position ↔
        ∃ p, g.declared[position]? = some p ∧ p.constructor.name = name) ∧
    ((∀ name, g.IsAnswerFor name (g.lookupBy (.name name))) ∧
      ∀ t : Ty, g.IsAnswerFor t.name (g.lookupBy (.type t))) ∧
    ((∀ c p, g.production c = .ok p ↔ g.declared.filter (·.constructor.name = c) = [p]) ∧
      ∀ c e, g.production c = .error e ↔
        (∀ p ∈ g.declared, p.constructor.name ≠ c) ∧ e = .unknownConstructor c) ∧
    ∀ c p, g.production c = .ok p →
      (∃ ps, g.lookupBy (.type p.head) = .ok ps ∧ p ∈ ps) ∧
      ∃ id, g.productionId? p = some id ∧ g.productions[id]? = some p := by
  have hgroup {group : Group} (h : group ∈ g.groups) :=
    And.intro (g.grouping.productions group h) fun p hp => head_eq_of_mem_group (p := p) h hp
  have hlookup (head : String) : g.IsAnswerFor head (g.lookup head) :=
    ⟨fun ps => lookup_eq_ok, fun e => lookup_eq_error⟩
  have hproduction (c : String) (p : Production) :
      g.production c = .ok p ↔ g.declared.filter (·.name = c) = [p] :=
    production_eq_ok.trans filter_name_eq_singleton.symm
  refine ⟨⟨g.grouping.names, g.grouping.nodup_names, fun group h => hgroup h, g.root_eq_head_group,
    g.grouping.perm⟩, ⟨g.locates_groups, g.indexed.positions⟩,
    ⟨fun name => hlookup name, fun t => hlookup t.name⟩,
    ⟨hproduction, fun c e => production_eq_error⟩, fun c p h => ⟨?_, ?_⟩⟩
  · have hp := (production_eq_ok.1 h).1
    exact ⟨_, lookup_eq_ok.2 ⟨⟨p, hp, rfl⟩, rfl⟩, by simpa using hp⟩
  · have hp := g.productions_perm.mem_iff.2 (production_eq_ok.1 h).1
    obtain ⟨id, hid, hentry⟩ := g.numbering_productions.exists_id hp
    exact ⟨id, hid, g.numbering_productions.entry id ▸ hentry⟩

end Asdl.Grammar
