import AttributeEncryption.Failure
import Mathlib.Data.List.Forall2

/-!
# Results of computations that may fail

`OverflowOr P x` says that the computation `x` gives a value with the property `P` or
reports an overflow. It carries from the parts of a computation to the whole. Where every
part succeeds, `mapM_eq_ok` does the same for success. Looking up the items of a list fails for the
first one that is not found (`FirstUnknown.mapM_lookUp`).
-/

namespace AttributeEncryption

@[simp] theorem ok_bind {ε α β : Type} (a : α) (f : α → Except ε β) :
    (Except.ok a >>= f) = f a :=
  rfl

theorem toOption_map {ε α β : Type} (x : Except ε α) (f : α → β) :
    (x.map f).toOption = x.toOption.map f := by
  cases x <;> rfl

theorem exists_of_map_eq_ok {ε α β : Type} {f : α → β} {x : Except ε α} {b : β}
    (h : x.map f = .ok b) : ∃ a, x = .ok a ∧ f a = b := by
  cases x with
  | error cause => cases h
  | ok a => exact ⟨a, rfl, Except.ok.inj h⟩

theorem map_eq_error_iff {ε α β : Type} {f : α → β} {x : Except ε α} {cause : ε} :
    x.map f = .error cause ↔ x = .error cause := by
  cases x <;> simp [Except.map]

/-- If every item has a result, the list of them is the result for the list. -/
theorem mapM_eq_ok {ε α β : Type} {f : α → Except ε β} {g : α → β} :
    ∀ {l : List α}, (∀ a ∈ l, f a = .ok (g a)) → l.mapM f = .ok (l.map g)
  | [], _ => rfl
  | a :: l, h => by
    rw [List.mapM_cons, h a (by simp), mapM_eq_ok fun a' ha' => h a' (by simp [ha'])]
    rfl

/-- If every item has a result with some property, so does the list, item by item. -/
theorem exists_mapM_eq_ok {ε α β : Type} {f : α → Except ε β} {R : α → β → Prop} :
    ∀ {l : List α}, (∀ a ∈ l, ∃ b, f a = .ok b ∧ R a b) →
      ∃ bs, l.mapM f = .ok bs ∧ List.Forall₂ R l bs
  | [], _ => ⟨[], rfl, List.Forall₂.nil⟩
  | a :: l, h => by
    obtain ⟨b, hb, hR⟩ := h a (by simp)
    obtain ⟨bs, hbs, hRs⟩ := exists_mapM_eq_ok fun a' ha' => h a' (List.mem_cons_of_mem a ha')
    refine ⟨b :: bs, ?_, List.Forall₂.cons hR hRs⟩
    rw [List.mapM_cons, hb, hbs]
    rfl

/-- A list that has a result has one for every item. -/
theorem forall₂_of_mapM_eq_ok {ε α β : Type} {f : α → Except ε β} :
    ∀ {l : List α} {bs : List β}, l.mapM f = .ok bs → List.Forall₂ (fun a b => f a = .ok b) l bs
  | [], bs, h => by
    cases h
    exact List.Forall₂.nil
  | a :: l, bs, h => by
    rw [List.mapM_cons] at h
    cases ha : f a with
    | error cause =>
      rw [ha] at h
      cases h
    | ok b =>
      cases hl : l.mapM f with
      | error cause =>
        rw [ha, hl] at h
        cases h
      | ok bs' =>
        rw [ha, hl] at h
        cases h
        exact List.Forall₂.cons ha (forall₂_of_mapM_eq_ok hl)

/-- Every result in the list is that of an item. -/
theorem exists_of_mem_mapM {ε α β : Type} {f : α → Except ε β} {l : List α} {bs : List β} {b : β}
    (h : l.mapM f = .ok bs) (hb : b ∈ bs) : ∃ a ∈ l, f a = .ok b := by
  obtain ⟨i, hi, rfl⟩ := List.getElem_of_mem hb
  have hall := forall₂_of_mapM_eq_ok h
  exact ⟨_, List.getElem_mem (hall.length_eq ▸ hi), hall.get (hall.length_eq ▸ hi) hi⟩

/-- A list without a result has an item without a result. -/
theorem exists_of_mapM_eq_error {ε α β : Type} {f : α → Except ε β} {cause : ε} :
    ∀ {l : List α}, l.mapM f = .error cause → ∃ a ∈ l, f a = .error cause
  | [], h => by cases h
  | a :: l, h => by
    rw [List.mapM_cons] at h
    cases ha : f a with
    | error cause' =>
      rw [ha] at h
      cases h
      exact ⟨a, by simp, ha⟩
    | ok b =>
      cases hl : l.mapM f with
      | error cause' =>
        rw [ha, hl] at h
        cases h
        obtain ⟨a', ha', hcause⟩ := exists_of_mapM_eq_error hl
        exact ⟨a', List.mem_cons_of_mem a ha', hcause⟩
      | ok bs =>
        rw [ha, hl] at h
        cases h

/-- What is found for an item, or else the cause for it. -/
def lookUp {ε α β : Type} (find : α → Option β) (unknown : α → ε) (a : α) : Except ε β :=
  match find a with
  | some b => .ok b
  | none => .error (unknown a)

/-- The first item for which nothing is found. -/
def FirstUnknown {α β : Type} (find : α → Option β) (items : List α) (a : α) : Prop :=
  ∃ before after, items = before ++ a :: after ∧ (∀ b ∈ before, (find b).isSome) ∧ find a = none

theorem forall_isSome_or_firstUnknown {α β : Type} (find : α → Option β) :
    ∀ items : List α, (∀ a ∈ items, (find a).isSome) ∨ ∃ a, FirstUnknown find items a
  | [] => Or.inl (List.forall_mem_nil _)
  | a :: items => by
    cases ha : find a with
    | none => exact Or.inr ⟨a, [], items, rfl, List.forall_mem_nil _, ha⟩
    | some b =>
      have hsome : (find a).isSome := by rw [ha, Option.isSome_some]
      rcases forall_isSome_or_firstUnknown find items with h | ⟨a', before, after, rfl, h, ha'⟩
      · exact Or.inl (List.forall_mem_cons.mpr ⟨hsome, h⟩)
      · exact Or.inr ⟨a', a :: before, after, rfl, List.forall_mem_cons.mpr ⟨hsome, h⟩, ha'⟩

/-- If something is found for every item, this is the result. -/
theorem mapM_lookUp_eq_ok {ε α β : Type} {find : α → Option β} {unknown : α → ε} :
    ∀ {items : List α}, (∀ a ∈ items, (find a).isSome) →
      items.mapM (lookUp find unknown) = .ok (items.filterMap find)
  | [], _ => rfl
  | a :: items, h => by
    obtain ⟨ha, h⟩ := List.forall_mem_cons.mp h
    obtain ⟨b, hb⟩ := Option.isSome_iff_exists.mp ha
    rw [List.mapM_cons, mapM_lookUp_eq_ok h, lookUp, hb, List.filterMap_cons_some hb]
    rfl

/-- Looking items up fails for the first one for which nothing is found. -/
theorem FirstUnknown.mapM_lookUp {ε α β : Type} {find : α → Option β} {unknown : α → ε}
    {items : List α} {a : α} (h : FirstUnknown find items a) :
    items.mapM (lookUp find unknown) = .error (unknown a) := by
  obtain ⟨before, after, rfl, hbefore, ha⟩ := h
  rw [List.mapM_append, mapM_lookUp_eq_ok hbefore, List.mapM_cons, lookUp, ha]
  rfl

/-- The computation gives a value with the property `P`, or it reports an overflow. -/
def OverflowOr {α : Type} (P : α → Prop) : Except Failure α → Prop
  | .ok a => P a
  | .error cause => cause = .coefficientOverflow

namespace OverflowOr

variable {α β : Type} {P Q : α → Prop} {x : Except Failure α}

theorem of_eq_ok {a : α} (h : OverflowOr P x) (hx : x = .ok a) : P a := by
  rw [hx] at h
  exact h

theorem cases (h : OverflowOr P x) : x = .error .coefficientOverflow ∨ ∃ a, x = .ok a ∧ P a := by
  cases x with
  | error cause => exact Or.inl (congrArg _ h)
  | ok a => exact Or.inr ⟨a, rfl, h⟩

theorem mono (h : OverflowOr P x) (hPQ : ∀ a, P a → Q a) : OverflowOr Q x := by
  cases x with
  | error cause => exact h
  | ok a => exact hPQ a h

/-- What gives the value may be kept with it. -/
theorem self (h : OverflowOr P x) : OverflowOr (fun a => x = .ok a ∧ P a) x := by
  cases x with
  | error cause => exact h
  | ok a => exact ⟨rfl, h⟩

/-- The rule for two computations in a row. -/
theorem bind {R : β → Prop} {f : α → Except Failure β} (hx : OverflowOr P x)
    (hf : ∀ a, P a → OverflowOr R (f a)) : OverflowOr R (x >>= f) := by
  cases x with
  | error cause => exact hx
  | ok a => exact hf a hx

/-- The rule for a computation on every item of a list : the results and the items
correspond to each other. -/
theorem mapM {R : α → β → Prop} {f : α → Except Failure β} :
    ∀ {l : List α}, (∀ a ∈ l, OverflowOr (R a) (f a)) →
      OverflowOr (fun bs => (∀ a ∈ l, ∃ b ∈ bs, R a b) ∧ ∀ b ∈ bs, ∃ a ∈ l, R a b) (l.mapM f)
  | [], _ => by simp [OverflowOr, pure, Except.pure]
  | a :: l, h => by
    rw [List.mapM_cons]
    refine (h a (by simp)).bind fun b hb => ?_
    refine (mapM fun a' ha' => h a' (by simp [ha'])).bind fun bs hbs => ?_
    obtain ⟨hleft, hright⟩ := hbs
    refine ⟨fun a' ha' => ?_, fun b' hb' => ?_⟩
    · rcases List.mem_cons.mp ha' with rfl | ha'
      · exact ⟨b, by simp, hb⟩
      · obtain ⟨b', hb', hR⟩ := hleft a' ha'
        exact ⟨b', by simp [hb'], hR⟩
    · rcases List.mem_cons.mp hb' with rfl | hb'
      · exact ⟨a, by simp, hb⟩
      · obtain ⟨a', ha', hR⟩ := hright b' hb'
        exact ⟨a', by simp [ha'], hR⟩

end OverflowOr

end AttributeEncryption
