import Mathlib.Data.List.Infix

/-!
# Runs of a step function

A run is a list of calls; what is said of a run is said of the state after
every prefix of it. The rules are induction on the calls made: an invariant of
the step holds throughout, two runs stay related, and a property that a step
keeps exactly under a condition holds throughout exactly if every step of the
run meets the condition.
-/

namespace StepTrace

variable {σ κ : Type*}

/-- The state after the calls. -/
def run (step : σ → κ → σ) (s : σ) (calls : List κ) : σ := calls.foldl step s

@[simp] theorem run_nil (step : σ → κ → σ) (s : σ) : run step s [] = s := rfl

@[simp] theorem run_concat (step : σ → κ → σ) (s : σ) (calls : List κ) (c : κ) :
    run step s (calls ++ [c]) = step (run step s calls) c := by
  simp [run]

theorem run_inv {step : σ → κ → σ} {I : σ → Prop} {s : σ} (h₀ : I s)
    (hs : ∀ s c, I s → I (step s c)) (calls : List κ) : I (run step s calls) := by
  induction calls generalizing s with
  | nil => exact h₀
  | cons c rest ih => exact ih (hs s c h₀)

/-- Two runs over the same calls stay related if a step keeps that under a condition and every
step of the second run meets it. -/
theorem run_rel {τ : Type*} {step : σ → κ → σ} {step' : τ → κ → τ} {R : σ → τ → Prop}
    {C : τ → κ → Prop} {s : σ} {t : τ} (h₀ : R s t)
    (hs : ∀ s t c, R s t → C t c → R (step s c) (step' t c)) (calls : List κ)
    (h : ∀ done c, done ++ [c] <+: calls → C (run step' t done) c) :
    R (run step s calls) (run step' t calls) := by
  induction calls using List.reverseRecOn with
  | nil => exact h₀
  | append_singleton calls c ih =>
    rw [run_concat, run_concat]
    have hcalls := ih fun done c' hd => h done c' (hd.trans (List.prefix_append calls [c]))
    exact hs _ _ c hcalls (h calls c List.prefix_rfl)

/-- Every call meets `C` if the first one does, and every one after it. -/
theorem calls_cons {step : σ → κ → σ} {C : σ → κ → Prop} {s : σ} {c : κ} {calls : List κ}
    (hc : C s c) (h : ∀ done d, done ++ [d] <+: calls → C (run step (step s c) done) d) :
    ∀ done d, done ++ [d] <+: c :: calls → C (run step s done) d := by
  intro done d hd
  cases done with
  | nil =>
    obtain ⟨rfl, -⟩ := List.cons_prefix_cons.mp hd
    exact hc
  | cons e done =>
    obtain ⟨rfl, hrest⟩ := List.cons_prefix_cons.mp hd
    exact h done d hrest

/-- `P` holds after every call exactly if every call meets `C` in the state it is made in. -/
theorem always_iff {step : σ → κ → σ} {I P : σ → Prop} {C : σ → κ → Prop} {s : σ} (hI : I s)
    (hs : ∀ s c, I s → I (step s c)) (hP : P s)
    (hC : ∀ s c, I s → P s → (P (step s c) ↔ C s c)) (calls : List κ) :
    (∀ done, done <+: calls → P (run step s done)) ↔
      ∀ done c, done ++ [c] <+: calls → C (run step s done) c := by
  constructor
  · intro h done c hd
    have hdone : P (run step s done) := h done ((List.prefix_append done [c]).trans hd)
    have hnext : P (step (run step s done) c) := run_concat step s done c ▸ h _ hd
    exact (hC _ c (run_inv hI hs done) hdone).mp hnext
  · intro h done
    induction done using List.reverseRecOn with
    | nil => exact fun _ => hP
    | append_singleton done c ih =>
      intro hd
      have hdone : P (run step s done) := ih ((List.prefix_append done [c]).trans hd)
      rw [run_concat]
      exact (hC _ c (run_inv hI hs done) hdone).mpr (h done c hd)

/-! ### Steps that may fail -/

/-- The state after the calls, if none of them failed. -/
def runOption (step : σ → κ → Option σ) (s : σ) (calls : List κ) : Option σ :=
  run (fun o c => o.bind (step · c)) (some s) calls

theorem runOption_concat (step : σ → κ → Option σ) (s : σ) (calls : List κ) (c : κ) :
    runOption step s (calls ++ [c]) = (runOption step s calls).bind (step · c) :=
  run_concat _ _ _ _

/-- A run that keeps track of more than another one does what the other one does. -/
theorem runOption_map {τ : Type*} {step : σ → κ → Option σ} {step' : τ → κ → Option τ} {f : σ → τ}
    (hs : ∀ s c, (step s c).map f = step' (f s) c) (s : σ) (calls : List κ) :
    (runOption step s calls).map f = runOption step' (f s) calls := by
  induction calls using List.reverseRecOn with
  | nil => rfl
  | append_singleton calls c ih =>
    rw [runOption_concat, runOption_concat, ← ih, Option.map_bind, Option.bind_map]
    exact congrArg _ (funext fun s => hs s c)

theorem runOption_inv {step : σ → κ → Option σ} {I : σ → Prop} {s : σ} (h₀ : I s)
    (hs : ∀ s c s', I s → step s c = some s' → I s') (calls : List κ) :
    ∀ s', runOption step s calls = some s' → I s' := by
  refine run_inv (I := fun o => ∀ s', o = some s' → I s') ?_ ?_ calls
  · rintro s' ⟨⟩
    exact h₀
  · intro o c ho s' hs'
    obtain ⟨t, rfl, ht⟩ := Option.bind_eq_some_iff.mp hs'
    exact hs t c s' (ho t rfl) ht

/-- No call fails exactly if every call meets `C` in the state it is made in. -/
theorem runOption_isSome_iff {step : σ → κ → Option σ} {I : σ → Prop} {C : σ → κ → Prop} {s : σ}
    (h₀ : I s) (hs : ∀ s c s', I s → step s c = some s' → I s')
    (hC : ∀ s c, I s → ((step s c).isSome ↔ C s c)) (calls : List κ) :
    (runOption step s calls).isSome ↔
      ∀ done c, done ++ [c] <+: calls → ∀ s', runOption step s done = some s' → C s' c := by
  induction calls using List.reverseRecOn with
  | nil =>
    refine iff_of_true rfl fun done c hd => ?_
    exact absurd (List.prefix_nil.mp hd) (by simp)
  | append_singleton calls c ih =>
    rw [runOption_concat]
    constructor
    · intro hsome done c' hd s' hs'
      obtain ⟨t, ht⟩ := Option.isSome_iff_exists.mp hsome
      obtain ⟨r, hr, hrc⟩ := Option.bind_eq_some_iff.mp ht
      rcases List.prefix_concat_iff.mp hd with heq | hpre
      · obtain ⟨rfl, heq⟩ := List.append_inj' heq rfl
        obtain rfl : c' = c := by simpa using heq
        obtain rfl : r = s' := Option.some.inj (hr.symm.trans hs')
        exact (hC r c' (runOption_inv h₀ hs _ r hr)).mp (hrc ▸ rfl)
      · exact ih.mp (hr ▸ rfl) done c' hpre s' hs'
    · intro h
      obtain ⟨r, hr⟩ := Option.isSome_iff_exists.mp
        (ih.mpr fun done c' hd => h done c' (hd.trans (List.prefix_append calls [c])))
      rw [hr]
      exact (hC r c (runOption_inv h₀ hs _ r hr)).mpr (h calls c List.prefix_rfl r hr)

end StepTrace
