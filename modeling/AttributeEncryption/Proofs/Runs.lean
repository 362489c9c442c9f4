import AttributeEncryption.Randomness
import Mathlib.Data.Nat.Notation

/-!
# Runs of random computations

`Trial.Gives x ρ a ρ'` says that the computation `x` succeeds on the random words `ρ` with
the value `a` and leaves the words `ρ'`. There is one rule for each way in which
computations are put together, and `Gives.bind_inv` takes a successful run apart again. Draws
cannot fail : lists of them have the length asked for (`Randomness.run_scalars`,
`Randomness.run_bytes`).

`runCalls` runs calls that change a state, and returns their results with the last state.
-/

namespace AttributeEncryption

/-- Two computations in a row that may fail and change a state. -/
theorem run_exceptT_bind {ε σ α β : Type} (x : ExceptT ε (StateM σ) α)
    (f : α → ExceptT ε (StateM σ) β) (s : σ) :
    StateT.run (ExceptT.run (x >>= f)) s =
      match StateT.run (ExceptT.run x) s with
      | (.ok a, s') => StateT.run (ExceptT.run (f a)) s'
      | (.error cause, s') => (.error cause, s') := by
  rw [ExceptT.run_bind, StateT.run_bind]
  rcases StateT.run (ExceptT.run x) s with ⟨_ | _, _⟩ <;> rfl

namespace Trial

variable {α β : Type}

/-- On the random words `ρ`, the computation succeeds with `a` and leaves `ρ'`. -/
def Gives (x : Trial α) (ρ : Randomness) (a : α) (ρ' : Randomness) : Prop :=
  StateT.run (ExceptT.run x) ρ = (.ok a, ρ')

/-- What the computation gives on some random words. -/
def result (x : Trial α) (ρ : Randomness) : Except Failure α :=
  (StateT.run (ExceptT.run x) ρ).1

variable {x : Trial α} {f : α → Trial β} {ρ ρ' ρ'' : Randomness} {a : α} {b : β}

theorem Gives.result_eq (h : x.Gives ρ a ρ') : x.result ρ = .ok a :=
  congrArg Prod.fst h

theorem exists_gives (h : x.result ρ = .ok a) : ∃ ρ', x.Gives ρ a ρ' :=
  ⟨(StateT.run (ExceptT.run x) ρ).2, Prod.ext h rfl⟩

/-- A computation gives one value. -/
theorem Gives.eq_of_result_eq {a' : α} (h : x.Gives ρ a ρ') (hresult : x.result ρ = .ok a') :
    a' = a :=
  Except.ok.inj (hresult.symm.trans h.result_eq)

/-- A computation that goes on without draws and failures. -/
theorem result_bind_pure (t : Trial α) (f : α → β) (ρ : Randomness) :
    result (t >>= fun a => pure (f a)) ρ = (t.result ρ).map f := by
  unfold Trial.result
  rw [run_exceptT_bind]
  rcases StateT.run (ExceptT.run t) ρ with ⟨_ | _, _⟩ <;> rfl

/-- A computation that starts with a check. -/
theorem result_lift_bind (x : Except Failure α) (f : α → Trial β) (ρ : Randomness) :
    result (liftM x >>= f) ρ = x >>= fun a => (f a).result ρ := by
  cases x <;> rfl

namespace Gives

theorem pure (a : α) (ρ : Randomness) : (Pure.pure a : Trial α).Gives ρ a ρ :=
  rfl

/-- After a successful computation the next one runs on the words that it left. -/
theorem run_bind (h : x.Gives ρ a ρ') (f : α → Trial β) :
    StateT.run (ExceptT.run (x >>= f)) ρ = StateT.run (ExceptT.run (f a)) ρ' := by
  unfold Gives at h
  rw [run_exceptT_bind, h]

theorem bind (hx : x.Gives ρ a ρ') (hf : (f a).Gives ρ' b ρ'') : (x >>= f).Gives ρ b ρ'' :=
  (hx.run_bind f).trans hf

/-- A draw always succeeds. -/
theorem draw {d : Draw α} (h : StateT.run d ρ = (a, ρ')) : (liftM d : Trial α).Gives ρ a ρ' := by
  have hrun : StateT.run (ExceptT.run (liftM d : Trial α)) ρ =
      (.ok (StateT.run d ρ).1, (StateT.run d ρ).2) := rfl
  unfold Gives
  rw [hrun, h]

/-- A computation without randomness leaves the words as they are. -/
theorem lift {x : Except Failure α} (h : x = .ok a) (ρ : Randomness) :
    (liftM x : Trial α).Gives ρ a ρ := by
  rw [h]
  rfl

/-- A successful run of two computations is one of each. -/
theorem bind_inv (h : (x >>= f).Gives ρ b ρ'') :
    ∃ a ρ', x.Gives ρ a ρ' ∧ (f a).Gives ρ' b ρ'' := by
  unfold Gives at *
  rw [run_exceptT_bind] at h
  rcases hx : StateT.run (ExceptT.run x) ρ with ⟨cause | a, ρ'⟩
  · rw [hx] at h
    cases h
  · rw [hx] at h
    exact ⟨a, ρ', rfl, h⟩

theorem draw_inv {d : Draw α} (h : (liftM d : Trial α).Gives ρ a ρ') :
    StateT.run d ρ = (a, ρ') := by
  have hrun : StateT.run (ExceptT.run (liftM d : Trial α)) ρ =
      (.ok (StateT.run d ρ).1, (StateT.run d ρ).2) := rfl
  unfold Gives at h
  rw [hrun] at h
  obtain ⟨ha, hρ⟩ := Prod.mk.inj h
  exact Prod.ext (Except.ok.inj ha) hρ

theorem pure_inv {a' : α} (h : (Pure.pure a : Trial α).Gives ρ a' ρ') : a' = a :=
  (Except.ok.inj (congrArg Prod.fst h)).symm

theorem lift_inv {x : Except Failure α} (h : (liftM x : Trial α).Gives ρ a ρ') : x = .ok a :=
  congrArg Prod.fst h

theorem lift_state {x : Except Failure α} (h : (liftM x : Trial α).Gives ρ a ρ') : ρ = ρ' :=
  congrArg Prod.snd h

end Gives

end Trial

/-! ## Draws -/

/-- What a draw gives on some random words. -/
def Draw.value {α : Type} (d : Draw α) (ρ : Randomness) : α :=
  (StateT.run d ρ).1

theorem Draw.value_eq {α : Type} {d : Draw α} {ρ ρ' : Randomness} {a : α}
    (h : StateT.run d ρ = (a, ρ')) : d.value ρ = a :=
  congrArg Prod.fst h

/-- A draw cannot fail. -/
theorem Trial.result_draw {α : Type} (d : Draw α) (ρ : Randomness) :
    Trial.result (liftM d) ρ = .ok (d.value ρ) :=
  rfl

theorem Draw.run_bind {α β : Type} {d : Draw α} {f : α → Draw β} {ρ ρ' : Randomness} {a : α}
    (h : StateT.run d ρ = (a, ρ')) : StateT.run (d >>= f) ρ = StateT.run (f a) ρ' := by
  rw [StateT.run_bind, h]
  rfl

namespace Randomness

variable {α : Type}

/-- What a draw gives, and the words that it leaves. -/
theorem exists_run (d : Draw α) (ρ : Randomness) : ∃ a ρ', StateT.run d ρ = (a, ρ') :=
  ⟨_, _, rfl⟩

/-- Drawing again and again gives a list of the length asked for. -/
theorem run_list {d : Draw α} {draws : ℕ → Draw (List α)} (hzero : draws 0 = pure [])
    (hsucc : ∀ n, draws (n + 1) = do
      let first ← d
      let rest ← draws n
      return first :: rest) (n : ℕ) (ρ : Randomness) :
    ∃ items ρ', items.length = n ∧ StateT.run (draws n) ρ = (items, ρ') := by
  induction n generalizing ρ with
  | zero => exact ⟨[], ρ, rfl, by rw [hzero]; rfl⟩
  | succ n ih =>
    obtain ⟨first, ρ₁, hfirst⟩ := exists_run d ρ
    obtain ⟨rest, ρ₂, hlength, hrest⟩ := ih ρ₁
    refine ⟨first :: rest, ρ₂, by rw [List.length_cons, hlength], ?_⟩
    rw [hsucc, StateT.run_bind, hfirst]
    change StateT.run (draws n >>= fun rest => pure (first :: rest)) ρ₁ = _
    rw [StateT.run_bind, hrest]
    rfl

theorem run_scalars (n : ℕ) (ρ : Randomness) :
    ∃ vector ρ', vector.length = n ∧ StateT.run (scalars n) ρ = (vector, ρ') :=
  run_list rfl (fun _ => rfl) n ρ

theorem length_flatMap_littleEndian (words : List UInt64) :
    (words.flatMap fun w => littleEndian 8 w.toNat).length = 8 * words.length := by
  induction words with
  | nil => rfl
  | cons w words ih =>
    rw [List.flatMap_cons, List.length_append, ih, length_littleEndian, List.length_cons]
    omega

/-- As many bytes are drawn as were asked for. -/
theorem run_bytes (n : ℕ) (ρ : Randomness) :
    ∃ drawn ρ', drawn.length = n ∧ StateT.run (bytes n) ρ = (drawn, ρ') := by
  obtain ⟨items, ρ', hlength, hrun⟩ :=
    @run_list _ next words rfl (fun _ => rfl) ((n + 7) / 8) ρ
  refine ⟨(items.flatMap fun w => littleEndian 8 w.toNat).take n, ρ', ?_, ?_⟩
  · rw [List.length_take, length_flatMap_littleEndian, hlength]
    omega
  · rw [bytes, StateT.run_bind, hrun]
    rfl

end Randomness

/-! ## Calls -/

/-- The results of calls one after the other, each in the state that the one before left, and
the last state. -/
def runCalls {σ C O : Type} (step : σ → C → O × σ) (s : σ) : List C → List O × σ
  | [] => ([], s)
  | c :: rest =>
    let (result, s) := step s c
    let (results, s) := runCalls step s rest
    (result :: results, s)

theorem runCalls_cons {σ C O : Type} (step : σ → C → O × σ) (s : σ) (c : C) (calls : List C) :
    runCalls step s (c :: calls) =
      ((step s c).1 :: (runCalls step (step s c).2 calls).1,
        (runCalls step (step s c).2 calls).2) :=
  rfl

/-- The last call runs in the state that the calls before it left. -/
theorem runCalls_concat {σ C O : Type} (step : σ → C → O × σ) (s : σ) (calls : List C) (c : C) :
    runCalls step s (calls ++ [c]) =
      ((runCalls step s calls).1 ++ [(step (runCalls step s calls).2 c).1],
        (step (runCalls step s calls).2 c).2) := by
  induction calls generalizing s with
  | nil => rfl
  | cons first calls ih => rw [List.cons_append, runCalls_cons, ih, runCalls_cons, List.cons_append]

/-- If a view of the states is updated like the states, so it is along every run. -/
theorem runCalls_view {σ τ C O : Type} {step : σ → C → O × σ} {step' : τ → C → O × τ}
    (view : σ → τ) (h : ∀ s c, step' (view s) c = ((step s c).1, view (step s c).2)) (s : σ)
    (calls : List C) :
    runCalls step' (view s) calls =
      ((runCalls step s calls).1, view (runCalls step s calls).2) := by
  induction calls generalizing s with
  | nil => rfl
  | cons c calls ih =>
    simp only [runCalls, h, ih]

/-- Every call has a result. -/
theorem length_runCalls {σ C O : Type} (step : σ → C → O × σ) (s : σ) (calls : List C) :
    (runCalls step s calls).1.length = calls.length := by
  induction calls generalizing s with
  | nil => rfl
  | cons c calls ih => exact congrArg Nat.succ (ih (step s c).2)

end AttributeEncryption
