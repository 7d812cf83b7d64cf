import Muses.Memory.Accounting

/-!
# The high-water mark of a pool

`allocate` looks at the free-list of a class before it carves a block from the arena, and what is
carved is never given back to the arena. So a class takes from the arena as many blocks as were held
at the same time, once, and no more, however blocks come and go.
-/

namespace Muses.MemoryPool

open Muses.Core

variable {p p' : MemoryPool} {s s' : Clients}

theorem allocate_carves {G : GlobalAllocator} {n user : Nat}
    (h : p.allocate G n = some (p', user)) : p'.carved = p.carved ∨
      (p.bins (p.pickClass n)).head = none ∧ p'.carved = (user, p.pickClass n) :: p.carved := by
  unfold allocate at h
  simp only at h
  split at h
  · exact .inl (allocateEscaped_some h).2.2.2.1
  obtain ⟨⟨p₁, slot⟩, htake, hrest⟩ := Option.bind_eq_some_iff.mp h
  obtain ⟨⟨p₂, slot₂⟩, hpop, heq⟩ := Option.map_eq_some_iff.mp htake
  cases slot₂ with
  | some slot₂ =>
    cases heq
    cases hrest
    obtain ⟨next, rfl⟩ := popFree_some hpop
    exact .inl rfl
  | none =>
    obtain rfl := popFree_none hpop
    simp only at heq
    split at heq <;> cases heq
    · rename_i slot₃ hcarve
      obtain ⟨-, rfl⟩ := carveFromArena_some hcarve
      cases hrest
      refine .inr ⟨?_, rfl⟩
      unfold popFree at hpop
      cases hhead : (p₂.bins (p₂.pickClass n)).head with
      | none => rfl
      | some a => simp [hhead] at hpop
    · exact .inl (allocateEscaped_some hrest).2.2.2.1

theorem release_carved {user : Nat} (h : p.release user = some p') : p'.carved = p.carved := by
  obtain ⟨hd, -, rfl⟩ := Option.map_eq_some_iff.mp h
  simp only
  split
  · split
    · rfl
    · unfold recycleToBin
      split <;> rfl
  · rfl

/-- Only an `allocate` that finds the free-list of its class empty carves a block, and its client
holds it then. -/
theorem Clients.step_carves {r : Request} (h : s.step r = some s') :
    s'.pool.carved = s.pool.carved ∨ ∃ i user, (s.pool.bins i).head = none ∧
      s'.pool.carved = (user, i) :: s.pool.carved ∧ s'.refs = Function.update s.refs user 1 := by
  cases r with
  | allocate G n =>
    simp only [Clients.step] at h
    split at h
    · rename_i p user halloc
      cases h
      exact (allocate_carves halloc).imp_right fun hc => ⟨_, user, hc.1, hc.2, rfl⟩
    · split at h <;> cases h
      exact .inl rfl
  | retain user =>
    simp only [Clients.step] at h
    split at h
    · obtain ⟨p, hret, rfl⟩ := Option.map_eq_some_iff.mp h
      obtain ⟨hd, -, rfl⟩ := Option.map_eq_some_iff.mp hret
      exact .inl rfl
    · cases h
  | release user =>
    simp only [Clients.step] at h
    split at h
    · obtain ⟨p, hrel, rfl⟩ := Option.map_eq_some_iff.mp h
      exact .inl (release_carved hrel)
    · cases h
  | write user off xs =>
    simp only [Clients.step] at h
    split at h <;> cases h
    exact .inl rfl

theorem Ledger.held_of_head {live free : List Block} {i u : Nat} (h : Ledger s live free)
    (hhead : (s.pool.bins i).head = none) (hu : (u, i) ∈ s.pool.carved) : 0 < s.refs u := by
  have hchain := h.arranged.chain i
  rw [hhead] at hchain
  rcases h.live_or_free hu with hheld | hfree
  · exact hheld.1
  · generalize slotsOf free i = l at hchain hfree
    cases hchain
    exact absurd hfree.2.1 (by simp)

/-- **The arena is used up to the high-water mark.** In every state that sane requests reach: for
each size class there was a moment of the run at which clients held all the blocks of the class that
have ever been carved from the arena, all of them at once. -/
theorem carved_held_at_once {base arenaBytes : Nat} {classes : List Nat}
    (hclasses : ∀ c ∈ classes, c < 2 ^ 32)
    (hfew : (normalizeClasses classes).length < ESCAPED) {rs : List Request}
    (hrun : exec Clients.step (.start base arenaBytes classes) rs = some s)
    (hsane : Meets Clients.step Clients.Sane (.start base arenaBytes classes) rs) (i : Nat) :
    ∃ pre s', pre <+: rs ∧ exec Clients.step (.start base arenaBytes classes) pre = some s' ∧
      ∀ u, (u, i) ∈ s.pool.carved → 0 < s'.refs u := by
  induction rs using List.reverseRecOn generalizing s with
  | nil =>
    cases hrun
    exact ⟨[], _, List.prefix_refl _, rfl, by simp [Clients.start, make]⟩
  | append_singleton rs r ih =>
    obtain ⟨m, hm, hstep⟩ := exec_of_concat hrun
    have hbefore := ((meets_append hm).mp hsane).1
    obtain ⟨pre, s', hpre, hs', hheld⟩ := ih hm hbefore
    have hearlier : pre <+: rs ++ [r] := hpre.trans (List.prefix_append _ _)
    rcases Clients.step_carves hstep with hsame | ⟨j, user, hhead, hcarved, hrefs⟩
    · exact ⟨pre, s', hearlier, hs', by rwa [hsame]⟩
    by_cases hj : i = j
    · -- the block that was carved just now is held, and so are the others
      subst hj
      obtain ⟨live, free, hledger⟩ := run_ledger hclasses hfew hm hbefore
      refine ⟨rs ++ [r], s, List.prefix_refl _, hrun, fun u hu => ?_⟩
      rw [hcarved] at hu
      rw [hrefs]
      by_cases hne : u = user
      · simp [hne]
      · rw [Function.update_of_ne hne]
        exact hledger.held_of_head hhead (by simpa [hne] using hu)
    · exact ⟨pre, s', hearlier, hs', by simpa [hcarved, hj] using hheld⟩

theorem carved_held_at_once_shareOnce :
    ∃ s : Clients, exec Clients.step (.start 0 4096 [64]) shareOnce = some s ∧
      ∃ pre s', pre <+: shareOnce ∧ exec Clients.step (.start 0 4096 [64]) pre = some s' ∧
        ∀ u, (u, 0) ∈ s.pool.carved → 0 < s'.refs u :=
  ⟨_, rfl, carved_held_at_once (by decide) (by decide) rfl (by decide +kernel) 0⟩

end Muses.MemoryPool
