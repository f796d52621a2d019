import Mathlib.Data.List.Induction
import Mathlib.Logic.Function.Iterate

/-!
# `Lib.Run` — runs of a partial step function

A system is a step function `step : σ → α → Option σ`: the label `a : α` fixes every choice the
environment makes (which thread moves, which key it names), and `none` says the step is not enabled. A
run is the left fold of `step` over a list of labels, so a run is data that can be evaluated.

## Contents
- `exec` and its two unfoldings, from the front (`exec_cons`) and from the back (`exec_concat`).
- `Meets step C s as`: every step of the run satisfies `C` on the state before it.
- The invariant rules: `exec_invariant` for arbitrary runs, `exec_invariant_of_meets` for runs whose
  steps all meet a condition; and the trap rule `meets_of_trap`, which goes the other way.
- `exec_countP_le`: a potential bounds how often a run takes a kind of step; `exists_exec_replicate`: a thread
  that can always move and comes nearer to its goal reaches it on its own (`exists_iterate` where it has no choice).
- `Along step P s as`: `P` holds in every state the run passes through, and `along_iff_meets`, which
  turns a one-step equivalence into an equivalence over whole runs.
-/

namespace Run

variable {σ α : Type*} {step : σ → α → Option σ}

/-- Run the labels `as` from `s`; `none` when some label is not enabled where it is taken. -/
def exec (step : σ → α → Option σ) (s : σ) (as : List α) : Option σ := as.foldlM step s

@[simp] theorem exec_nil (s : σ) : exec step s [] = some s := rfl

theorem exec_cons (s : σ) (a : α) (as : List α) :
    exec step s (a :: as) = (step s a).bind (exec step · as) := rfl

theorem exec_append (s : σ) (as bs : List α) :
    exec step s (as ++ bs) = (exec step s as).bind (exec step · bs) := List.foldlM_append

theorem exec_concat (s : σ) (as : List α) (a : α) :
    exec step s (as ++ [a]) = (exec step s as).bind (step · a) := by
  rw [exec_append]
  cases exec step s as with
  | none => rfl
  | some t => simp [exec_cons]

/-- The state before the last step of a run. -/
theorem exec_concat_eq_some {s u : σ} {as : List α} {a : α} (h : exec step s (as ++ [a]) = some u) :
    ∃ t, exec step s as = some t ∧ step t a = some u := by
  rw [exec_concat] at h
  exact Option.bind_eq_some_iff.mp h

/-- The states a run passes through are reached by its prefixes. -/
theorem exec_append_eq_some {s u : σ} {as bs : List α} (h : exec step s (as ++ bs) = some u) :
    ∃ t, exec step s as = some t ∧ exec step t bs = some u := by
  rw [exec_append] at h
  exact Option.bind_eq_some_iff.mp h

/-! ## Invariants -/

/-- A property of the start that every step keeps holds at the end of every run. -/
theorem exec_invariant {I : σ → Prop} {s t : σ} {as : List α} (hs : I s)
    (hstep : ∀ s a t, I s → step s a = some t → I t) (h : exec step s as = some t) : I t := by
  induction as generalizing s with
  | nil => exact Option.some.inj h ▸ hs
  | cons a as ih =>
      rw [exec_cons] at h
      obtain ⟨u, hu, h⟩ := Option.bind_eq_some_iff.mp h
      exact ih (hstep s a u hs hu) h

/-- Every step of the run from `s` along `as` satisfies `C` in the state before it. -/
def Meets (step : σ → α → Option σ) (C : σ → α → Prop) (s : σ) : List α → Prop
  | [] => True
  | a :: as => C s a ∧ ∀ t, step s a = some t → Meets step C t as

/-- Whether a run meets a condition can be computed. -/
instance decidableMeets {C : σ → α → Prop} [∀ s a, Decidable (C s a)] :
    ∀ (s : σ) (as : List α), Decidable (Meets step C s as)
  | _, [] => isTrue trivial
  | s, a :: as =>
    match h : step s a with
    | none => decidable_of_iff (C s a) (by simp [Meets, h])
    | some t =>
      have := decidableMeets (C := C) t as
      decidable_of_iff (C s a ∧ Meets step C t as) (by simp [Meets, h])

/-- Labels that satisfy the condition in any state. -/
theorem meets_of_forall {C : σ → α → Prop} {as : List α} (h : ∀ a ∈ as, ∀ s, C s a) (s : σ) :
    Meets step C s as := by
  induction as generalizing s with
  | nil => trivial
  | cons a as ih =>
      exact ⟨h a List.mem_cons_self s, fun t _ => ih (fun b hb => h b (List.mem_cons_of_mem _ hb)) t⟩

theorem meets_append {C : σ → α → Prop} {s : σ} {as bs : List α} :
    Meets step C s (as ++ bs) ↔
      Meets step C s as ∧ ∀ t, exec step s as = some t → Meets step C t bs := by
  induction as generalizing s with
  | nil => simp [Meets]
  | cons a as ih =>
      simp only [List.cons_append, Meets, ih, exec_cons, Option.bind_eq_some_iff]
      constructor
      · rintro ⟨hc, h⟩
        exact ⟨⟨hc, fun t ht => (h t ht).1⟩, fun u ⟨t, ht, hu⟩ => (h t ht).2 u hu⟩
      · rintro ⟨⟨hc, h⟩, hbs⟩
        exact ⟨hc, fun t ht => ⟨h t ht, fun u hu => hbs u ⟨t, ht, hu⟩⟩⟩

/-- Two conditions at once. -/
theorem Meets.and {C D : σ → α → Prop} {s : σ} {as : List α} (hC : Meets step C s as) (hD : Meets step D s as) :
    Meets step (fun s a => C s a ∧ D s a) s as := by
  induction as generalizing s with
  | nil => trivial
  | cons a as ih => exact ⟨⟨hC.1, hD.1⟩, fun t ht => ih (hC.2 t ht) (hD.2 t ht)⟩

theorem meets_concat {C : σ → α → Prop} {s : σ} {as : List α} {a : α} :
    Meets step C s (as ++ [a]) ↔
      Meets step C s as ∧ ∀ t, exec step s as = some t → C t a := by
  rw [meets_append]
  simp [Meets]

/-- The invariant rule for runs whose steps all meet a condition. -/
theorem exec_invariant_of_meets {I : σ → Prop} {C : σ → α → Prop} {s t : σ} {as : List α}
    (hs : I s) (hstep : ∀ s a t, I s → C s a → step s a = some t → I t)
    (hC : Meets step C s as) (h : exec step s as = some t) : I t := by
  induction as generalizing s with
  | nil => exact Option.some.inj h ▸ hs
  | cons a as ih =>
      rw [exec_cons] at h
      obtain ⟨u, hu, h⟩ := Option.bind_eq_some_iff.mp h
      exact ih (hstep s a u hs hC.1 hu) (hC.2 u hu) h

/-- A run that meets a condition meets what the condition implies in the states such a run reaches. -/
theorem Meets.imp {I : σ → Prop} {C D : σ → α → Prop} {s : σ} {as : List α} (h : Meets step C s as) (hs : I s)
    (hstep : ∀ s a t, I s → C s a → step s a = some t → I t) (hD : ∀ s a, I s → C s a → D s a) :
    Meets step D s as := by
  induction as generalizing s with
  | nil => trivial
  | cons a as ih => exact ⟨hD s a hs h.1, fun t ht => ih (h.2 t ht) (hstep s a t hs h.1 ht)⟩

/-- The trap rule. Where a step that violates `C` leads into `T`, and nothing leads out of `T`, a run that ends
    outside of `T` meets `C`. -/
theorem meets_of_trap {I T : σ → Prop} {C : σ → α → Prop} {s u : σ} {as : List α} (hs : I s)
    (hI : ∀ s a t, I s → step s a = some t → I t)
    (htrap : ∀ s a t, I s → step s a = some t → ¬ C s a → T t)
    (hT : ∀ s a t, I s → T s → step s a = some t → T t)
    (h : exec step s as = some u) (hu : ¬ T u) : Meets step C s as := by
  induction as generalizing s with
  | nil => trivial
  | cons a as ih =>
      rw [exec_cons] at h
      obtain ⟨t, ht, h⟩ := Option.bind_eq_some_iff.mp h
      refine ⟨?_, fun t' ht' => ?_⟩
      · -- a violation would keep the whole rest of the run in the trap
        by_contra hC
        have hinv : I u ∧ T u := exec_invariant (I := fun s => I s ∧ T s)
          ⟨hI s a t hs ht, htrap s a t hs ht hC⟩
          (fun s a t hi hst => ⟨hI s a t hi.1 hst, hT s a t hi.1 hi.2 hst⟩) h
        exact hu hinv.2
      · obtain rfl := Option.some.inj (ht.symm.trans ht')
        exact ih (hI s a t hs ht) h

/-! ## Steps that are paid for -/

/-- The potential rule. Where every step of the kind `p` lowers the potential, a step of the kind `q` raises it by at
    most `k`, and no other step raises it, the potential bounds how many steps of the kind `p` a run has. -/
theorem exec_countP_le {I : σ → Prop} (potential : σ → Nat) (p q : α → Bool) (k : Nat)
    (hI : ∀ s a t, I s → step s a = some t → I t)
    (hpaid : ∀ s a t, I s → step s a = some t →
      potential t + (if p a then 1 else 0) ≤ potential s + if q a then k else 0)
    {s t : σ} {as : List α} (hs : I s) (h : exec step s as = some t) :
    as.countP p + potential t ≤ potential s + k * as.countP q := by
  induction as generalizing s with
  | nil =>
      obtain rfl := Option.some.inj h
      simp
  | cons a as ih =>
      rw [exec_cons] at h
      obtain ⟨u, hu, h⟩ := Option.bind_eq_some_iff.mp h
      have hrest := ih (hI s a u hs hu) h
      have hfirst := hpaid s a u hs hu
      rw [List.countP_cons, List.countP_cons, Nat.mul_add]
      split_ifs at hfirst ⊢ <;> omega

/-- The progress rule. Where the step `a` is enabled in every state that satisfies `I` and is not the goal, keeps `I`
    and lowers the measure, taking it again and again leads to the goal. -/
theorem exists_exec_replicate {I goal : σ → Prop} (measure : σ → Nat) (a : α)
    (hstep : ∀ s, I s → ¬ goal s → ∃ t, step s a = some t ∧ I t ∧ measure t < measure s) {s : σ} (hs : I s) :
    ∃ k ≤ measure s, ∃ t, exec step s (List.replicate k a) = some t ∧ I t ∧ goal t := by
  induction hm : measure s using Nat.strongRecOn generalizing s with
  | ind m ih =>
      by_cases hgoal : goal s
      · exact ⟨0, Nat.zero_le _, s, rfl, hs, hgoal⟩
      · obtain ⟨t, hst, ht, hlt⟩ := hstep s hs hgoal
        obtain ⟨k, hk, u, hu, hrest⟩ := ih (measure t) (hm ▸ hlt) ht rfl
        refine ⟨k + 1, by omega, u, ?_, hrest⟩
        rw [List.replicate_succ, exec_cons, hst]
        exact hu

/-- The progress rule for a step with no choice in it. -/
theorem exists_iterate {f : σ → σ} (I goal : σ → Prop) (measure : σ → Nat)
    (hstep : ∀ s, I s → ¬ goal s → I (f s) ∧ measure (f s) < measure s) {s : σ} (hs : I s) :
    ∃ k ≤ measure s, I (f^[k] s) ∧ goal (f^[k] s) := by
  have hexec : ∀ k s, exec (fun s (_ : Unit) => some (f s)) s (List.replicate k ()) = some (f^[k] s) := by
    intro k
    induction k with
    | zero => exact fun s => rfl
    | succ k ih => exact fun s => ih (f s)
  have hrun : ∃ k ≤ measure s, ∃ t, exec (fun s (_ : Unit) => some (f s)) s (List.replicate k ()) = some t ∧
      I t ∧ goal t := exists_exec_replicate measure () (fun s hs hnot => ⟨f s, rfl, hstep s hs hnot⟩) hs
  obtain ⟨k, hk, t, ht, hI, hgoal⟩ := hrun
  obtain rfl := Option.some.inj ((hexec k s).symm.trans ht)
  exact ⟨k, hk, hI, hgoal⟩

/-! ## Properties of every state of a run -/

/-- `P` relates every prefix of the run to the state it reaches, the start and the end included. -/
def Along (step : σ → α → Option σ) (P : List α → σ → Prop) (s : σ) (as : List α) : Prop :=
  ∀ pre t, pre <+: as → exec step s pre = some t → P pre t

theorem along_nil {P : List α → σ → Prop} {s : σ} : Along step P s [] ↔ P [] s := by
  constructor
  · intro h
    exact h [] s (List.prefix_refl _) rfl
  · intro h pre t hpre ht
    obtain rfl := List.prefix_nil.mp hpre
    exact Option.some.inj ht ▸ h

theorem along_concat {P : List α → σ → Prop} {s : σ} {as : List α} {a : α} :
    Along step P s (as ++ [a]) ↔
      Along step P s as ∧ ∀ u, exec step s (as ++ [a]) = some u → P (as ++ [a]) u := by
  constructor
  · intro h
    exact ⟨fun pre t hpre => h pre t (hpre.trans (List.prefix_append _ _)),
      fun u => h _ u (List.prefix_refl _)⟩
  · rintro ⟨h, hlast⟩ pre t hpre ht
    rcases List.prefix_concat_iff.mp hpre with rfl | hpre
    · exact hlast t ht
    · exact h pre t hpre ht

/-- **From one step to whole runs.** If, at every state the run reaches, the property survives the next
    step exactly when the step meets `C`, then a run keeps the property throughout exactly when all its
    steps meet `C`. -/
theorem along_iff_meets {P : List α → σ → Prop} {C : σ → α → Prop} {s u : σ} {as : List α}
    (hs : P [] s)
    (hstep : ∀ pre a t v, pre ++ [a] <+: as → exec step s pre = some t → step t a = some v →
      Meets step C s pre → P pre t → (P (pre ++ [a]) v ↔ C t a))
    (h : exec step s as = some u) :
    Along step P s as ↔ Meets step C s as := by
  induction as using List.reverseRecOn generalizing u with
  | nil => simp [along_nil, Meets, hs]
  | append_singleton as a ih =>
      obtain ⟨t, ht, hu⟩ := exec_concat_eq_some h
      have ih := ih (fun pre b t v hpre => hstep pre b t v (hpre.trans (List.prefix_append _ _))) ht
      rw [along_concat, meets_concat, ih]
      apply and_congr_right
      intro hm
      have hP : P as t := ih.mpr hm as t (List.prefix_refl _) ht
      have hiff := hstep as a t u (List.prefix_refl _) ht hu hm hP
      constructor
      · intro hlast t' ht'
        obtain rfl := Option.some.inj (ht.symm.trans ht')
        exact hiff.mp (hlast u h)
      · intro hC u' hu'
        obtain rfl := Option.some.inj (h.symm.trans hu')
        exact hiff.mpr (hC t ht)

end Run
