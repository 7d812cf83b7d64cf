import Mathlib

/-!
# Runs of a partial step function

A system is a partial function `step : σ → ι → Option σ`: all nondeterminism sits in the label,
and `none` says that the label is not enabled in that state. This module owns the vocabulary
every machine of the development is stated in:

* `exec step s as` — the state after the labels `as`, if each of them is enabled in turn;
* `Reachable step s₀ s` — some label list leads from `s₀` to `s`;
* `Meets step C s as` — every label of `as` satisfies the condition `C` in the state in which
  it is taken;
* `Sometime step P s as` — `P` holds at some moment of the run `as`;
* `exec_invariant`, `exec_invariant_of_meets` — the two induction rules;
* `session call s as` — the same for calls that return something, with what they returned;
* `session_invariant`, `session_lockstep` — what holds after every sequence of calls, and two
  machines that go through the same calls side by side.
-/

namespace Muses.Core

variable {σ ι τ : Type*} {step : σ → ι → Option σ}

def exec (step : σ → ι → Option σ) : σ → List ι → Option σ
  | s, [] => some s
  | s, a :: as => (step s a).bind fun s' => exec step s' as

/-- Some actions lead from `s₀` to `s`. -/
def Reachable (step : σ → ι → Option σ) (s₀ s : σ) : Prop :=
  ∃ as, exec step s₀ as = some s

/-- Every action of the run meets `C` in the state it is taken in. -/
def Meets (step : σ → ι → Option σ) (C : σ → ι → Prop) : σ → List ι → Prop
  | _, [] => True
  | s, a :: as => C s a ∧ ∀ s', step s a = some s' → Meets step C s' as

variable {s s' : σ} {as : List ι} {C : σ → ι → Prop} {a : ι} {P I : σ → Prop} {t : τ}

theorem meets_cons (h : step s a = some s') :
    Meets step C s (a :: as) ↔ C s a ∧ Meets step C s' as := by
  simp [Meets, h]

theorem Meets.mono {D : σ → ι → Prop} (hCD : ∀ s a, C s a → D s a) (h : Meets step C s as) :
    Meets step D s as := by
  induction as generalizing s with
  | nil => trivial
  | cons a as ih => exact ⟨hCD s a h.1, fun s' hstep => ih (h.2 s' hstep)⟩

theorem Meets.and {D : σ → ι → Prop} (hC : Meets step C s as) (hD : Meets step D s as) :
    Meets step (fun s a => C s a ∧ D s a) s as := by
  induction as generalizing s with
  | nil => trivial
  | cons a as ih =>
    exact ⟨⟨hC.1, hD.1⟩, fun s' hstep => ih (hC.2 s' hstep) (hD.2 s' hstep)⟩

theorem meets_append {m : σ} {bs : List ι} (h : exec step s as = some m) :
    Meets step C s (as ++ bs) ↔ Meets step C s as ∧ Meets step C m bs := by
  induction as generalizing s with
  | nil =>
    cases h
    simp [Meets]
  | cons a as ih =>
    obtain ⟨s', hstep, hrest⟩ := Option.bind_eq_some_iff.mp h
    rw [List.cons_append, meets_cons hstep, meets_cons hstep, ih hrest, and_assoc]

theorem meets_of_forall (hC : ∀ s a, C s a) (s : σ) (as : List ι) : Meets step C s as := by
  induction as generalizing s with
  | nil => trivial
  | cons a as ih => exact ⟨hC s a, fun s' _ => ih s'⟩

theorem meets_of_mem {P : ι → Prop} (s : σ) (hP : ∀ a ∈ as, P a) :
    Meets step (fun _ a => P a) s as := by
  induction as generalizing s with
  | nil => trivial
  | cons a as ih =>
    exact ⟨hP a List.mem_cons_self, fun s' _ => ih s' fun b hb => hP b (List.mem_cons_of_mem a hb)⟩

instance Meets.decidable {C : σ → ι → Prop} [∀ s a, Decidable (C s a)] :
    ∀ (s : σ) (as : List ι), Decidable (Meets step C s as)
  | _, [] => .isTrue trivial
  | s, a :: as =>
      match h : step s a with
      | some s' =>
          have := Meets.decidable (C := C) s' as
          decidable_of_iff _ (meets_cons h).symm
      | none => decidable_of_iff (C s a) (by simp [Meets, h])

/-- `P` holds in some state of the run. -/
def Sometime (step : σ → ι → Option σ) (P : σ → Prop) : σ → List ι → Prop
  | s, [] => P s
  | s, a :: as => P s ∨ ∃ s', step s a = some s' ∧ Sometime step P s' as

theorem sometime_cons (h : step s a = some s') :
    Sometime step P s (a :: as) ↔ P s ∨ Sometime step P s' as := by
  simp [Sometime, h]

instance Sometime.decidable {P : σ → Prop} [DecidablePred P] :
    ∀ (s : σ) (as : List ι), Decidable (Sometime step P s as)
  | s, [] => inferInstanceAs (Decidable (P s))
  | s, a :: as =>
      match h : step s a with
      | some s' =>
          have := Sometime.decidable (P := P) s' as
          decidable_of_iff _ (sometime_cons h).symm
      | none => decidable_of_iff (P s) (by simp [Sometime, h])

@[simp] theorem exec_nil (s : σ) : exec step s [] = some s := rfl

theorem exec_cons {s'' : σ} (h : exec step s (a :: as) = some s'') :
    ∃ s', step s a = some s' ∧ exec step s' as = some s'' :=
  Option.bind_eq_some_iff.mp h

theorem exec_cons_of_step (as : List ι) (h : step s a = some s') :
    exec step s (a :: as) = exec step s' as := by
  simp [exec, h]

theorem exec_append (s : σ) (as bs : List ι) :
    exec step s (as ++ bs) = (exec step s as).bind fun m => exec step m bs := by
  induction as generalizing s with
  | nil => rfl
  | cons a as ih =>
    simp only [List.cons_append, exec]
    cases step s a with
    | none => rfl
    | some m => simpa using ih m

theorem exec_concat {m : σ} (h : exec step s as = some m) (hstep : step m a = some s') :
    exec step s (as ++ [a]) = some s' := by
  rw [exec_append, h]
  exact exec_cons_of_step [] hstep

theorem exec_of_concat (h : exec step s (as ++ [a]) = some s') :
    ∃ m, exec step s as = some m ∧ step m a = some s' := by
  rw [exec_append] at h
  obtain ⟨m, hm, hlast⟩ := Option.bind_eq_some_iff.mp h
  obtain ⟨m', hstep, hnil⟩ := exec_cons hlast
  cases hnil
  exact ⟨m, hm, hstep⟩

/-- **The invariant rule.** What one step preserves, a whole run preserves. -/
theorem exec_invariant (hstep : ∀ s a s', I s → step s a = some s' → I s') (hI : I s)
    (hrun : exec step s as = some s') : I s' := by
  induction as generalizing s with
  | nil => cases hrun; exact hI
  | cons a as ih =>
    obtain ⟨m, hm, hrest⟩ := exec_cons hrun
    exact ih (hstep s a m hI hm) hrest

theorem exec_invariant_of_meets (hstep : ∀ s a s', I s → C s a → step s a = some s' → I s')
    {s s' : σ} {as : List ι} (hI : I s) (hmeets : Meets step C s as)
    (hrun : exec step s as = some s') : I s' := by
  induction as generalizing s with
  | nil => cases hrun; exact hI
  | cons a as ih =>
    obtain ⟨m, hm, hrest⟩ := exec_cons hrun
    exact ih (hstep s a m hI hmeets.1 hm) (hmeets.2 m hm) hrest

/-- **The entry rule.** A run that ends in `Q` without having started there has a step that enters
`Q`; what such a step requires of the state before it held at some moment of the run. -/
theorem sometime_of_entered {Q : σ → Prop}
    (hkeep : ∀ s a s', I s → C s a → step s a = some s' → I s')
    (henter : ∀ s a s', I s → C s a → step s a = some s' → ¬ Q s → Q s' → P s) (hI : I s)
    (hmeets : Meets step C s as) (hrun : exec step s as = some s') (hstart : ¬ Q s) (hend : Q s') :
    Sometime step P s as := by
  induction as generalizing s with
  | nil =>
    cases hrun
    exact absurd hend hstart
  | cons a as ih =>
    obtain ⟨m, hm, hrest⟩ := exec_cons hrun
    rw [sometime_cons hm]
    by_cases hQ : Q m
    · exact Or.inl (henter s a m hI hmeets.1 hm hstart hQ)
    · exact Or.inr (ih (hkeep s a m hI hmeets.1 hm) (hmeets.2 m hm) hrest hQ)

theorem path_invariant {R : τ → τ → Prop} {I : τ → Prop} {t' : τ}
    (h : Relation.ReflTransGen R t t') (hstep : ∀ u u', I u → R u u' → I u') (hI : I t) : I t' := by
  induction h with
  | refl => exact hI
  | tail _ hlast ih => exact hstep _ _ ih hlast

/-- **The forward simulation rule.** A machine with the same labels, one that may get stuck, does
not if each step of the first is matched by one of its own. -/
theorem exec_simulates {step' : τ → ι → Option τ} {R : τ → σ → Prop}
    (hsim : ∀ t s a s', R t s → C s a → step s a = some s' → ∃ t', step' t a = some t' ∧ R t' s')
    (hR : R t s) (hmeets : Meets step C s as) (hrun : exec step s as = some s') :
    ∃ t', exec step' t as = some t' ∧ R t' s' := by
  induction as generalizing t s with
  | nil =>
    cases hrun
    exact ⟨t, rfl, hR⟩
  | cons a as ih =>
    obtain ⟨m, hm, hrest⟩ := exec_cons hrun
    obtain ⟨u, hu, hRu⟩ := hsim t s a m hR hmeets.1 hm
    obtain ⟨t', ht', hR'⟩ := ih hRu (hmeets.2 m hm) hrest
    exact ⟨t', by rw [exec_cons_of_step as hu, ht'], hR'⟩

theorem exec_total (f : τ → ι → τ) (t : τ) (as : List ι) :
    exec (fun t a => some (f t a)) t as = some (as.foldl f t) := by
  induction as generalizing t with
  | nil => rfl
  | cons a as ih => exact ih (f t a)

/-! ## Calls that return something -/

variable {ρ ρ' : Type*}

def session (call : σ → ι → Option (σ × ρ)) : σ → List ι → Option (σ × List ρ)
  | s, [] => some (s, [])
  | s, a :: as =>
      (call s a).bind fun (s', r) => (session call s' as).map fun (s'', rs) => (s'', r :: rs)

theorem session_cons {call : σ → ι → Option (σ × ρ)} {rs : List ρ}
    (h : session call s (a :: as) = some (s', rs)) :
    ∃ m r rs', call s a = some (m, r) ∧ session call m as = some (s', rs') ∧ rs = r :: rs' := by
  obtain ⟨⟨m, r⟩, hm, h⟩ := Option.bind_eq_some_iff.mp h
  obtain ⟨⟨s'', rs'⟩, hrest, hpair⟩ := Option.map_eq_some_iff.mp h
  cases hpair
  exact ⟨m, r, rs', hm, hrest, rfl⟩

theorem session_invariant {call : σ → ι → Option (σ × ρ)}
    (hcall : ∀ s a s' r, I s → call s a = some (s', r) → I s') {rs : List ρ} (hI : I s)
    (h : session call s as = some (s', rs)) : I s' := by
  induction as generalizing s rs with
  | nil =>
    cases h
    exact hI
  | cons a as ih =>
    obtain ⟨m, r, rs', hm, hrest, -⟩ := session_cons h
    exact ih (hcall s a m r hI hm) hrest

/-- **The lockstep rule.** If related states take every call, to related results and related states,
then they take every sequence of calls so. -/
theorem session_lockstep {call : σ → ι → Option (σ × ρ)} {call' : τ → ι → Option (τ × ρ')}
    {R : σ → τ → Prop} {Q : ρ → ρ' → Prop}
    (hcall : ∀ s t a, R s t → ∃ s' r t' r', call s a = some (s', r) ∧ call' t a = some (t', r') ∧
      Q r r' ∧ R s' t') (hR : R s t) (as : List ι) :
    ∃ s' rs t' rs', session call s as = some (s', rs) ∧ session call' t as = some (t', rs') ∧
      List.Forall₂ Q rs rs' ∧ R s' t' := by
  induction as generalizing s t with
  | nil => exact ⟨s, [], t, [], rfl, rfl, .nil, hR⟩
  | cons a as ih =>
    obtain ⟨m, r, m', r', hm, hm', hQ, hR⟩ := hcall s t a hR
    obtain ⟨s', rs, t', rs', hs, ht, hrest, hR'⟩ := ih hR
    refine ⟨s', r :: rs, t', r' :: rs', ?_, ?_, .cons hQ hrest, hR'⟩
    · simp [session, hm, hs]
    · simp [session, hm', ht]

end Muses.Core
