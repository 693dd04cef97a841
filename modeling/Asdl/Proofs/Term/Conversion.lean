import Asdl.Proofs.Grammar.Lookup
import Asdl.Proofs.Tree.Rearrangement
import Asdl.Term

/-! Terms and trees, one node at a time. The term of a node lists what its slots hold; the node of a
term comes about by a run without a refusal, of the values that its arguments convert to. -/
namespace Asdl

section Lists
variable {α β : Type} {R : α → β → Prop}

lemma exists_forall₂_iff {l : List α} :
    (∃ l', List.Forall₂ R l l') ↔ ∀ a ∈ l, ∃ b, R a b := by
  induction l with
  | nil => simp
  | cons a rest ih =>
    rw [List.forall_mem_cons, ← ih]
    simp only [List.forall₂_cons_left_iff]
    constructor
    · rintro ⟨_, b, rest', hb, hrest, rfl⟩
      exact ⟨⟨b, hb⟩, rest', hrest⟩
    · rintro ⟨⟨b, hb⟩, rest', hrest⟩
      exact ⟨_, b, rest', hb, hrest, rfl⟩

lemma map_eq_map_of_forall₂ {γ : Type} {f : α → γ} {f' : β → γ} {l : List α} {l' : List β}
    (h : List.Forall₂ R l l') (hf : ∀ a ∈ l, ∀ b, R a b → f a = f' b) : l.map f = l'.map f' := by
  induction h with
  | nil => rfl
  | cons hab _ ih =>
    rw [List.map_cons, List.map_cons, hf _ List.mem_cons_self _ hab,
      ih fun a ha => hf a (List.mem_cons_of_mem _ ha)]

end Lists

namespace Term

/-- Terms are built up from the terms among their arguments. -/
@[elab_as_elim]
theorem induction {P : Term → Prop}
    (node : ∀ c arguments, (∀ name u, (name, Argument.term u) ∈ arguments → P u) →
      P ⟨c, arguments⟩) : ∀ a, P a
  | ⟨c, arguments⟩ => node c arguments fun _ u _hu => induction node u
termination_by a => sizeOf a
decreasing_by
  have hargument := List.sizeOf_lt_of_mem _hu
  simp only [Prod.mk.sizeOf_spec, Argument.term.sizeOf_spec, Application.mk.sizeOf_spec] at *
  omega

/-- Whether a term is a node of another, at any depth. -/
inductive HasNode : Term → Term → Prop
  | root (a : Term) : HasNode a a
  | argument {c name : String} {arguments : List (String × Argument)} {u v : Term}
    (hu : (name, Argument.term u) ∈ arguments) (hv : HasNode u v) : HasNode ⟨c, arguments⟩ v

lemma forall_hasNode_iff {P : Term → Prop} {c : String} {arguments : List (String × Argument)} :
    (∀ u, HasNode ⟨c, arguments⟩ u → P u) ↔
      P ⟨c, arguments⟩ ∧
        ∀ name u, (name, Argument.term u) ∈ arguments → ∀ v, HasNode u v → P v := by
  constructor
  · intro h
    exact ⟨h _ (.root _), fun name u hu v hv => h v (.argument hu hv)⟩
  · rintro ⟨hroot, hbelow⟩ u hu
    cases hu with
    | root => exact hroot
    | argument hu hv => exact hbelow _ _ hu _ hv

end Term

mutual

def Argument.arranged (g : Grammar) : Argument → Argument
  | .token text => .token text
  | .term a => .term (Term.arranged g a)

/-- A term with the arguments of each node stably sorted by the positions of their fields. -/
def Term.arranged (g : Grammar) : Term → Term
  | ⟨c, arguments⟩ =>
    match g.production c with
    | .ok p => ⟨c, p.arrange (Term.arrangedAll g arguments)⟩
    | .error _ => ⟨c, Term.arrangedAll g arguments⟩

def Term.arrangedAll (g : Grammar) : List (String × Argument) → List (String × Argument)
  | [] => []
  | (name, argument) :: rest => (name, argument.arranged g) :: Term.arrangedAll g rest

end

namespace Term
variable {g : Grammar} {c : String} {arguments : List (String × Argument)}

lemma ofSlots_eq (slots : List (Slot Value)) :
    ofSlots slots = (slots.flatMap Slot.offers).map (Prod.map id Argument.ofValue) := by
  have hvalues (name : String) (values : List Value) :
      ofValues name values = values.map fun v => (name, Argument.ofValue v) := by
    induction values with
    | nil => rfl
    | cons v rest ih => rw [ofValues, ih, List.map_cons]
  induction slots with
  | nil => rfl
  | cons s rest ih =>
    obtain ⟨f, values⟩ := s
    simp [ofSlots, hvalues, ih, Slot.offers, Function.comp_def]

/-- The arguments of a term are what the slots of the node hold. -/
lemma ofTree_eq (t : Tree) :
    ofTree t = ⟨t.production.name, t.offers.map (Prod.map id Argument.ofValue)⟩ := by
  obtain ⟨p, slots⟩ := t
  rw [ofTree, ofSlots_eq]
  rfl

lemma arrangedAll_eq (g : Grammar) (arguments : List (String × Argument)) :
    arrangedAll g arguments = arguments.map (Prod.map id (Argument.arranged g)) := by
  induction arguments with
  | nil => rfl
  | cons a rest ih =>
    obtain ⟨name, argument⟩ := a
    rw [arrangedAll, ih, List.map_cons]
    rfl

lemma arranged_eq {p : Production} (hp : g.production c = .ok p) :
    arranged g ⟨c, arguments⟩ =
      ⟨c, p.arrange (arguments.map (Prod.map id (Argument.arranged g)))⟩ := by
  rw [arranged, hp, arrangedAll_eq]

/-- Whether an argument is converted to what is offered to the node. -/
def Converts (g : Grammar) (a : String × Argument) (o : String × Value) : Prop :=
  a.1 = o.1 ∧ a.2.toValue g = .ok o.2

lemma toValue_term_eq_ok {a : Term} {v : Value} :
    (Argument.term a).toValue g = .ok v ↔ ∃ t, toTree g a = .ok t ∧ .tree t = v := by
  rw [Argument.toValue, Result.bind_eq_ok]
  simp only [Result.pure_eq_ok]

/-- Arguments are converted and added in turn, so all of them are converted and then added if
nothing goes wrong. -/
lemma addArguments_eq_ok {t t' : Tree} : addArguments g arguments t = .ok t' ↔
    ∃ offers, List.Forall₂ (Converts g) arguments offers ∧ t.addAll offers = .ok t' := by
  induction arguments generalizing t with
  | nil => simp [addArguments]
  | cons a rest ih =>
    obtain ⟨name, argument⟩ := a
    simp only [addArguments, Result.bind_eq_ok, ih, List.forall₂_cons_left_iff]
    constructor
    · rintro ⟨v, hv, u, hu, offers, hoffers, hadd⟩
      exact ⟨_, ⟨(name, v), offers, ⟨rfl, hv⟩, hoffers, rfl⟩,
        Node.addAll_cons_eq_ok.2 ⟨u, hu, hadd⟩⟩
    · rintro ⟨_, ⟨⟨name', v⟩, offers, ⟨rfl, hv⟩, hoffers, rfl⟩, hadd⟩
      obtain ⟨u, hu, hadd⟩ := Node.addAll_cons_eq_ok.1 hadd
      exact ⟨v, hv, u, hu, offers, hoffers, hadd⟩

lemma toTree_eq_ok {t : Tree} : toTree g ⟨c, arguments⟩ = .ok t ↔
    ∃ p offers, g.production c = .ok p ∧ List.Forall₂ (Converts g) arguments offers ∧
      (Node.empty p).addAll offers = .ok t := by
  simp only [toTree, Result.bind_eq_ok, addArguments_eq_ok, exists_and_left]

lemma map_fst_of_converts {offers : List (String × Value)}
    (h : List.Forall₂ (Converts g) arguments offers) :
    arguments.map Prod.fst = offers.map Prod.fst :=
  map_eq_map_of_forall₂ h fun _ _ _ hconvert => hconvert.1

end Term

end Asdl
