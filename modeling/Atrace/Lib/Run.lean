import Mathlib.Data.List.Basic
import Mathlib.Logic.Function.Basic
import Mathlib.Order.WellFounded

/-! Labelled runs: invariants, composition, stuttering simulation, termination. -/
namespace Atrace.Lib

variable {σ τ ℓ κ : Type*}

/-- Finite runs of a labelled step relation, with their labels in order. -/
inductive Run (step : σ → ℓ → σ → Prop) : σ → List ℓ → σ → Prop where
  | refl {s : σ} : Run step s [] s
  | stepL {s t u : σ} {a : ℓ} {as : List ℓ} :
      step s a t → Run step t as u → Run step s (a :: as) u

/-- States reached from an initial state by some run. -/
def Reachable (step : σ → ℓ → σ → Prop) (init : σ → Prop) (s : σ) : Prop :=
  ∃ s₀ as, init s₀ ∧ Run step s₀ as s

/-- The same steps, labelled with the state they start from as well. -/
def Traced (step : σ → ℓ → σ → Prop) (s : σ) (l : σ × ℓ) (t : σ) : Prop :=
  l.1 = s ∧ step s l.2 t

namespace Run

variable {step : σ → ℓ → σ → Prop} {s t u : σ} {a : ℓ} {as bs : List ℓ}

theorem append (h : Run step s as t) (h' : Run step t bs u) : Run step s (as ++ bs) u := by
  induction h with
  | refl => exact h'
  | stepL hs _ ih => exact .stepL hs (ih h')

theorem stepR (h : Run step s as t) (ht : step t a u) : Run step s (as ++ [a]) u :=
  h.append (.stepL ht .refl)

/-- A predicate preserved by every step is preserved by every run. -/
theorem inv {P : σ → Prop} (hP : ∀ s a t, step s a t → P s → P t)
    (h : Run step s as t) (hs : P s) : P t := by
  induction h with
  | refl => exact hs
  | stepL h _ ih => exact ih (hP _ _ _ h hs)

/-- The same with a condition that the labels of the run satisfy. -/
theorem inv_of_labels {P : σ → Prop} {Q : ℓ → Prop}
    (hP : ∀ s a t, step s a t → Q a → P s → P t)
    (h : Run step s as t) (hq : ∀ a ∈ as, Q a) (hs : P s) : P t := by
  induction h with
  | refl => exact hs
  | @stepL s t u a as h _ ih =>
    exact ih (fun b hb => hq b (List.mem_cons_of_mem a hb))
      (hP s a t h (hq a List.mem_cons_self) hs)

/-- What a step from a good state says of its label holds of every label of the run. -/
theorem labels {P : σ → Prop} {Q R : ℓ → Prop} (hP : ∀ s a t, step s a t → Q a → P s → P t)
    (hR : ∀ s a t, step s a t → Q a → P s → R a)
    (h : Run step s as t) (hq : ∀ a ∈ as, Q a) (hs : P s) : ∀ a ∈ as, R a := by
  induction h with
  | refl => simp
  | @stepL s t u a as h _ ih =>
    have hqa := hq a List.mem_cons_self
    intro b hb
    rcases List.mem_cons.mp hb with rfl | hb
    · exact hR s b t h hqa hs
    · exact ih (fun c hc => hq c (List.mem_cons_of_mem a hc)) (hP s a t h hqa hs) b hb

/-- A potential that no step raises and every counted step lowers bounds the counted steps. -/
theorem countP_add_le {P : σ → Prop} {Q : ℓ → Prop} (potential : σ → Nat) (counted : ℓ → Bool)
    (hP : ∀ s a t, step s a t → Q a → P s → P t)
    (hle : ∀ s a t, step s a t → Q a → P s →
      potential t + (if counted a then 1 else 0) ≤ potential s)
    (h : Run step s as t) (hq : ∀ a ∈ as, Q a) (hs : P s) :
    as.countP counted + potential t ≤ potential s := by
  induction h with
  | refl => simp
  | @stepL s t u a as h _ ih =>
    have hqa := hq a List.mem_cons_self
    have hfirst := hle s a t h hqa hs
    have hrest := ih (fun b hb => hq b (List.mem_cons_of_mem a hb)) (hP s a t h hqa hs)
    rw [List.countP_cons]
    omega

/-- A run may be labelled with its states as well. -/
theorem traced (h : Run step s as t) : ∃ ls, Run (Traced step) s ls t ∧ ls.map Prod.snd = as := by
  induction h with
  | refl => exact ⟨[], .refl, rfl⟩
  | @stepL s t u a as h _ ih =>
    obtain ⟨ls, ih, hls⟩ := ih
    have hfirst : Traced step s (s, a) t := ⟨rfl, h⟩
    exact ⟨_, .stepL hfirst ih, congrArg (a :: ·) hls⟩

theorem untraced {ls : List (σ × ℓ)} (h : Run (Traced step) s ls t) :
    Run step s (ls.map Prod.snd) t := by
  induction h with
  | refl => exact .refl
  | stepL h _ ih =>
    obtain ⟨rfl, h⟩ := h
    exact .stepL h ih

/-- Steps that map to a step of the abstract relation, or leave its state alone,
map whole runs to abstract runs over the labels that are kept. -/
theorem simulate {stepA : τ → κ → τ → Prop} {P : σ → Prop} (abs : σ → τ) (keep : ℓ → Option κ)
    (hP : ∀ s a t, step s a t → P s → P t)
    (hkeep : ∀ s a t k, step s a t → P s → keep a = some k → stepA (abs s) k (abs t))
    (hskip : ∀ s a t, step s a t → P s → keep a = none → abs t = abs s)
    (h : Run step s as t) (hs : P s) : Run stepA (abs s) (as.filterMap keep) (abs t) := by
  induction h with
  | refl => exact .refl
  | @stepL s t u a as h _ ih =>
    have ih := ih (hP s a t h hs)
    cases hk : keep a with
    | none => simpa [List.filterMap_cons_none hk, hskip s a t h hs hk] using ih
    | some k => simpa [List.filterMap_cons_some hk] using .stepL (hkeep s a t k h hs hk) ih

end Run

namespace Reachable

variable {step : σ → ℓ → σ → Prop} {init : σ → Prop} {s t : σ} {a : ℓ}

theorem initial (h : init s) : Reachable step init s := ⟨s, [], h, .refl⟩

theorem tail (h : Reachable step init s) (ht : step s a t) : Reachable step init t := by
  obtain ⟨s₀, as, hi, hr⟩ := h
  exact ⟨s₀, as ++ [a], hi, hr.stepR ht⟩

/-- What holds initially and is preserved by every step holds of every reachable state. -/
theorem inv {P : σ → Prop} (hi : ∀ s, init s → P s) (hP : ∀ s a t, step s a t → P s → P t)
    (h : Reachable step init s) : P s := by
  obtain ⟨s₀, as, h₀, hr⟩ := h
  exact hr.inv hP (hi s₀ h₀)

end Reachable

/-- Steps that an infinite run would take one after the other, from `s` on. -/
def RunsForever (step : σ → ℓ → σ → Prop) (s : σ) : Prop :=
  ∃ (f : ℕ → σ) (l : ℕ → ℓ), f 0 = s ∧ ∀ n, step (f n) (l n) (f (n + 1))

/-- Every step from a good state decreases a measure, so no run goes on forever. -/
theorem not_runsForever {α : Type*} [Preorder α] [WellFoundedLT α]
    {step : σ → ℓ → σ → Prop} {P : σ → Prop} {s : σ} (measure : σ → α)
    (hP : ∀ s a t, step s a t → P s → P t)
    (hlt : ∀ s a t, step s a t → P s → measure t < measure s) (hs : P s) :
    ¬ RunsForever step s := by
  rintro ⟨f, l, h0, hf⟩
  have hinv : ∀ n, P (f n) := by
    intro n
    induction n with
    | zero => exact h0 ▸ hs
    | succ n ih => exact hP _ _ _ (hf n) ih
  obtain ⟨n, hn⟩ := WellFounded.not_rel_apply_succ (r := (· < ·)) fun n => measure (f n)
  exact hn (hlt _ _ _ (hf n) (hinv n))

end Atrace.Lib
