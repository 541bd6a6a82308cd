import Mathlib.Data.List.Basic

/-! Calls in a row, and refinement between two levels that serve them. -/
namespace Atrace.Lib.Calls

universe u

variable {σ τ ρ γ φ ψ χ : Type*} {α β : Type u}

/-- The calls with their answers; the first fault ends them. -/
def run (call : σ → γ → Except φ (σ × α)) : σ → List γ → Except φ (σ × List α)
  | s, [] => .ok (s, [])
  | s, c :: cs => do
    let (s, a) ← call s c
    let (s, as) ← run call s cs
    .ok (s, a :: as)

/-- Every call is legal in the state that it is made in. -/
def LegalRun (call : τ → γ → Except φ (τ × α)) (legal : τ → γ → Prop) : τ → List γ → Prop
  | _, [] => True
  | t, c :: cs => legal t c ∧ ∀ t' a, call t c = .ok (t', a) → LegalRun call legal t' cs

/-- The result is the one of the level above: the same fault, or the same answer and a related
state. -/
def Agrees (rel : σ → τ → Prop) (fault : φ → ψ) (r : Except ψ (σ × α)) : Except φ (τ × α) → Prop
  | .error f => r = .error (fault f)
  | .ok (t, a) => ∃ s, r = .ok (s, a) ∧ rel s t

variable {rel : σ → τ → Prop} {fault : φ → ψ} {call : τ → γ → Except φ (τ × α)}
  {legal : τ → γ → Prop} {s : σ} {t t' : τ} {c : γ} {cs : List γ} {a : α}

theorem legalRun_cons (hc : legal t c) (h : call t c = .ok (t', a))
    (hcs : LegalRun call legal t' cs) : LegalRun call legal t (c :: cs) := by
  refine ⟨hc, ?_⟩
  rintro t'' b hb
  cases h.symm.trans hb
  exact hcs

theorem Agrees.map {r : Except ψ (σ × α)} {r' : Except φ (τ × α)} (h : Agrees rel fault r r')
    (f : α → β) : Agrees rel fault (r.map fun z => (z.1, f z.2)) (r'.map fun z => (z.1, f z.2)) := by
  cases r' with
  | error g =>
    simp only [Agrees] at h
    rw [h]
    rfl
  | ok z =>
    obtain ⟨s, rfl, hs⟩ := h
    exact ⟨s, rfl, hs⟩

/-- What is proved of each case of the result above. -/
theorem Agrees.cases {r : Except ψ (σ × α)} {r' : Except φ (τ × α)} (h : Agrees rel fault r r') :
    (∀ f, r' = .error f → r = .error (fault f)) ∧
      ∀ t a, r' = .ok (t, a) → ∃ s, r = .ok (s, a) ∧ rel s t := by
  constructor
  · rintro f rfl
    exact h
  · rintro t a rfl
    exact h

theorem Agrees.mono {rel' : σ → τ → Prop} {r : Except ψ (σ × α)} {r' : Except φ (τ × α)}
    (h : Agrees rel fault r r') (hrel : ∀ s t a, r' = .ok (t, a) → rel s t → rel' s t) :
    Agrees rel' fault r r' := by
  cases r' with
  | error g => exact h
  | ok z =>
    obtain ⟨s, hr, hs⟩ := h
    exact ⟨s, hr, hrel s z.1 z.2 rfl hs⟩

/-- Three levels, one above the other. -/
theorem Agrees.trans {rel' : τ → ρ → Prop} {fault' : χ → φ} {r : Except ψ (σ × α)}
    {r' : Except φ (τ × α)} {r'' : Except χ (ρ × α)} (h : Agrees rel fault r r')
    (h' : Agrees rel' fault' r' r'') :
    Agrees (fun s q => ∃ t, r' = .ok t ∧ rel s t.1 ∧ rel' t.1 q) (fun f => fault (fault' f)) r r'' := by
  cases r'' with
  | error g =>
    simp only [Agrees] at h'
    subst h'
    exact h
  | ok z =>
    obtain ⟨t, rfl, ht⟩ := h'
    obtain ⟨s, rfl, hs⟩ := h
    exact ⟨s, rfl, _, rfl, hs, ht⟩

theorem Agrees.bind {r : Except ψ (σ × α)} {r' : Except φ (τ × α)}
    {f : σ × α → Except ψ (σ × β)} {g : τ × α → Except φ (τ × β)} {rel' : σ → τ → Prop}
    (h : Agrees rel fault r r')
    (hf : ∀ s t a, r' = .ok (t, a) → rel s t → Agrees rel' fault (f (s, a)) (g (t, a))) :
    Agrees rel' fault (r >>= f) (r' >>= g) := by
  cases r' with
  | error e =>
    simp only [Agrees] at h
    rw [h]
    rfl
  | ok z =>
    obtain ⟨s, rfl, hs⟩ := h
    exact hf s z.1 z.2 rfl hs

/-- Levels that agree on each legal call agree on legal runs. The relation may depend on how many
calls are still to come. -/
theorem run_agrees {call' : σ → γ → Except ψ (σ × α)} {rel : Nat → σ → τ → Prop}
    (hcall : ∀ n s t c, rel (n + 1) s t → legal t c → Agrees (rel n) fault (call' s c) (call t c))
    (h : rel cs.length s t) (hc : LegalRun call legal t cs) :
    Agrees (rel 0) fault (run call' s cs) (run call t cs) := by
  induction cs generalizing s t with
  | nil => exact ⟨s, rfl, h⟩
  | cons c cs ih =>
    obtain ⟨hlegal, hrest⟩ := hc
    have hstep := hcall cs.length s t c h hlegal
    cases ht : call t c with
    | error f =>
      rw [ht] at hstep
      simp only [Agrees] at hstep
      simp only [run, ht, hstep]
      rfl
    | ok r =>
      rw [ht] at hstep
      obtain ⟨s₁, hs₁, h₁⟩ := hstep
      have hrun := ih h₁ (hrest r.1 r.2 ht)
      simp only [run, ht, hs₁]
      cases htail : run call r.1 cs with
      | error f =>
        rw [htail] at hrun
        simp only [Agrees] at hrun
        simp only [bind, Except.bind, htail, hrun]
        rfl
      | ok z =>
        rw [htail] at hrun
        obtain ⟨s₂, hs₂, h₂⟩ := hrun
        simp only [bind, Except.bind, htail, hs₂]
        exact ⟨s₂, rfl, h₂⟩

end Atrace.Lib.Calls
