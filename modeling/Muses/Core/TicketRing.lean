import Mathlib

/-!
# The ticket-ring protocol

A bounded multi-producer multi-consumer ring of `p` slots in which the only synchronisation is a
sequence number per slot and two cursors. A producer takes the ticket `tail`, a consumer the
ticket `head`; ticket `pos` works on slot `pos % p`, and the slot's sequence number says whose
turn it is: `pos` for the producer of `pos`, `pos + 1` for its consumer, `pos + p` for the
producer of the next lap.

The protocol is stated for any type of threads and any payload, over the **roles** a thread can
play rather than over the program counters of a concrete implementation:

* `Step p` — the steps a thread can take: see its turn, win a ticket, work on the slot, pass it on;
* `Inv p` — the invariant that ties every slot to the two cursors and to the roles in flight;
* `Attended p` — a slot that lags behind the cursors is held by a thread, kept by every step.
-/

namespace Muses.Core.TicketRing

open Function

variable {Tid T : Type*}

/-- What a thread is doing to the ring. `wantPut` and `wantTake` have seen their turn on the slot
but have not won the ticket yet; the last four own the slot of their ticket. -/
inductive Role (T : Type*) where
  | outside
  | wantPut (pos : Nat)
  | filling (pos : Nat) (x : T)
  | filled (pos : Nat)
  | wantTake (pos : Nat)
  | taking (pos : Nat)
  | emptied (pos : Nat)

def Role.ticket : Role T → Option Nat
  | .filling pos _ => some pos
  | .filled pos => some pos
  | .taking pos => some pos
  | .emptied pos => some pos
  | _ => none

structure State (Tid T : Type*) where
  seq : Nat → Nat
  data : Nat → Option T
  tail : Nat
  head : Nat
  role : Tid → Role T
  put : List T

def State.fresh : State Tid T where
  seq := fun i => i
  data := fun _ => none
  tail := 0
  head := 0
  role := fun _ => .outside
  put := []

variable [DecidableEq Tid]

def State.setRole (s : State Tid T) (t : Tid) (r : Role T) : State Tid T :=
  { s with role := update s.role t r }

def State.setSeq (s : State Tid T) (i n : Nat) : State Tid T :=
  { s with seq := update s.seq i n }

def State.setData (s : State Tid T) (i : Nat) (d : Option T) : State Tid T :=
  { s with data := update s.data i d }

/-- One atomic step of some thread. A thread without a ticket may look at a slot (`seeFree`,
`seeFull`) or turn away (`leave`); the tickets are handed out by the two `claim` steps. -/
inductive Step (p : Nat) : State Tid T → State Tid T → Prop where
  | leave (s : State Tid T) (t : Tid) (h : (s.role t).ticket = none) :
      Step p s (s.setRole t .outside)
  | seeFree (s : State Tid T) (t : Tid) (pos : Nat) (h : (s.role t).ticket = none)
      (hseq : s.seq (pos % p) = pos) : Step p s (s.setRole t (.wantPut pos))
  | seeFull (s : State Tid T) (t : Tid) (pos : Nat) (h : (s.role t).ticket = none)
      (hseq : s.seq (pos % p) = pos + 1) : Step p s (s.setRole t (.wantTake pos))
  | claimPut (s : State Tid T) (t : Tid) (x : T) (h : s.role t = .wantPut s.tail) :
      Step p s ({ s with tail := s.tail + 1, put := s.put ++ [x] }.setRole t (.filling s.tail x))
  | fill (s : State Tid T) (t : Tid) (pos : Nat) (x : T) (h : s.role t = .filling pos x) :
      Step p s ((s.setData (pos % p) (some x)).setRole t (.filled pos))
  | publish (s : State Tid T) (t : Tid) (pos : Nat) (h : s.role t = .filled pos) :
      Step p s ((s.setSeq (pos % p) (pos + 1)).setRole t .outside)
  | claimTake (s : State Tid T) (t : Tid) (h : s.role t = .wantTake s.head) :
      Step p s ({ s with head := s.head + 1 }.setRole t (.taking s.head))
  | remove (s : State Tid T) (t : Tid) (pos : Nat) (h : s.role t = .taking pos) :
      Step p s ((s.setData (pos % p) none).setRole t (.emptied pos))
  | release (s : State Tid T) (t : Tid) (pos : Nat) (h : s.role t = .emptied pos) :
      Step p s ((s.setSeq (pos % p) (pos + p)).setRole t .outside)

/-! ## Slots and tickets -/

variable {p : Nat} {s : State Tid T}

theorem ticket_eq_of_slot_eq {a x y : Nat} (hx : a ≤ x) (hx' : x < a + p) (hy : a ≤ y)
    (hy' : y < a + p) (h : x % p = y % p) : x = y := by
  rcases Nat.le_total x y with hle | hle
  · have hd : p ∣ y - x := (Nat.modEq_iff_dvd' hle).mp h
    have := Nat.eq_zero_of_dvd_of_lt hd (by omega)
    omega
  · have hd : p ∣ x - y := (Nat.modEq_iff_dvd' hle).mp h.symm
    have := Nat.eq_zero_of_dvd_of_lt hd (by omega)
    omega

theorem slot_ne_succ {pos : Nat} (hp : 2 ≤ p) : (pos + 1) % p ≠ pos % p := by
  intro h
  have := ticket_eq_of_slot_eq (p := p) (a := pos) (by omega) (by omega) (by omega) (by omega) h
  omega

/-! ## The invariant -/

/-- What the holder of a ticket knows of its slot. -/
def RoleOk (p : Nat) (s : State Tid T) : Role T → Prop
  | .outside => True
  | .wantPut pos => pos ≤ s.seq (pos % p)
  | .filling pos x => s.head ≤ pos ∧ pos < s.tail ∧ s.seq (pos % p) = pos ∧ s.put[pos]? = some x
  | .filled pos =>
      s.head ≤ pos ∧ pos < s.tail ∧ s.seq (pos % p) = pos ∧ s.data (pos % p) = s.put[pos]?
  | .wantTake pos => pos + 1 ≤ s.seq (pos % p)
  | .taking pos =>
      pos < s.head ∧ s.tail ≤ pos + p ∧ s.seq (pos % p) = pos + 1 ∧
        s.data (pos % p) = s.put[pos]?
  | .emptied pos => pos < s.head ∧ s.tail ≤ pos + p ∧ s.seq (pos % p) = pos + 1

/-- The part of the invariant about cursors and slots: `used` speaks about the tickets between
the cursors, `free` about the rest of the lap. -/
structure Slots (p : Nat) (s : State Tid T) : Prop where
  head_le : s.head ≤ s.tail
  tail_le : s.tail ≤ s.head + p
  put_length : s.put.length = s.tail
  used : ∀ pos, s.head ≤ pos → pos < s.tail →
    s.seq (pos % p) = pos ∨ (s.seq (pos % p) = pos + 1 ∧ s.data (pos % p) = s.put[pos]?)
  free : ∀ pos, s.tail ≤ pos → pos < s.head + p →
    s.seq (pos % p) = pos ∨ s.seq (pos % p) + p = pos + 1

/-- The protocol invariant: the slots, what every thread in flight knows, and that no ticket is
held twice. -/
structure Inv (p : Nat) (s : State Tid T) : Prop extends Slots p s where
  roles : ∀ t, RoleOk p s (s.role t)
  unique : ∀ t u pos, (s.role t).ticket = some pos → (s.role u).ticket = some pos → t = u

omit [DecidableEq Tid] in
theorem inv_fresh (p : Nat) : Inv p (State.fresh : State Tid T) where
  head_le := Nat.le_refl _
  tail_le := Nat.zero_le _
  put_length := rfl
  used := by intro pos _ h; exact absurd h (Nat.not_lt_zero _)
  free := by
    intro pos _ h
    left
    simp only [State.fresh] at h ⊢
    exact Nat.mod_eq_of_lt (by omega)
  roles := fun _ => trivial
  unique := by intro t u pos h; simp [State.fresh, Role.ticket] at h

section

omit [DecidableEq Tid]

/-- A ticket holder is a producer whose slot shows its own number, or a consumer whose slot shows
the successor. -/
theorem RoleOk.seq_cases {p : Nat} {s : State Tid T} {r : Role T} {pos : Nat}
    (h : RoleOk p s r) (ht : r.ticket = some pos) :
    (s.head ≤ pos ∧ pos < s.tail ∧ s.seq (pos % p) = pos) ∨
      (pos < s.head ∧ s.tail ≤ pos + p ∧ s.seq (pos % p) = pos + 1) := by
  cases r <;> simp only [Role.ticket, reduceCtorEq, Option.some.injEq] at ht <;> subst ht
  case filling => exact Or.inl ⟨h.1, h.2.1, h.2.2.1⟩
  case filled => exact Or.inl ⟨h.1, h.2.1, h.2.2.1⟩
  case taking => exact Or.inr ⟨h.1, h.2.1, h.2.2.1⟩
  case emptied => exact Or.inr h

theorem RoleOk.ticket_eq {p : Nat} (hp : 2 ≤ p) {s : State Tid T} (hs : Slots p s)
    {r r' : Role T} {pos pos' : Nat} (h : RoleOk p s r) (h' : RoleOk p s r')
    (ht : r.ticket = some pos) (ht' : r'.ticket = some pos') (hslot : pos % p = pos' % p) :
    pos = pos' := by
  have htl := hs.tail_le
  rcases h.seq_cases ht with ⟨h1, h2, h3⟩ | ⟨h1, h2, h3⟩ <;>
    rcases h'.seq_cases ht' with ⟨k1, k2, k3⟩ | ⟨k1, k2, k3⟩
  · exact ticket_eq_of_slot_eq h1 (by omega) k1 (by omega) hslot
  · -- a producer of `pos` and a consumer of `pos'` would be neighbours on one slot
    rw [hslot, k3] at h3
    subst h3
    exact absurd hslot (slot_ne_succ hp)
  · rw [← hslot, h3] at k3
    subst k3
    exact absurd hslot.symm (slot_ne_succ hp)
  · rw [hslot, k3] at h3
    omega

end

/-- Assemble the invariant after thread `t` took the role `r`: the slots of the new shared state,
the new role, the roles of the others, and that nobody else holds the new ticket. -/
theorem inv_setRole {t : Tid} {r : Role T} (hs : Slots p s) (hr : RoleOk p s r)
    (hothers : ∀ u, u ≠ t → RoleOk p s (s.role u))
    (huniq : ∀ u v pos, u ≠ t → v ≠ t → (s.role u).ticket = some pos →
      (s.role v).ticket = some pos → u = v)
    (hnew : ∀ u pos, u ≠ t → r.ticket = some pos → (s.role u).ticket ≠ some pos) :
    Inv p (s.setRole t r) where
  head_le := hs.head_le
  tail_le := hs.tail_le
  put_length := hs.put_length
  used := hs.used
  free := hs.free
  roles := by
    intro u
    by_cases hu : u = t
    · subst hu
      simpa [State.setRole, RoleOk] using hr
    · simpa [State.setRole, hu, RoleOk] using hothers u hu
  unique := by
    intro u v pos hu hv
    simp only [State.setRole] at hu hv
    by_cases hut : u = t <;> by_cases hvt : v = t
    · rw [hut, hvt]
    · subst hut
      rw [update_self] at hu
      rw [update_of_ne hvt] at hv
      exact absurd hv (hnew v pos hvt hu)
    · subst hvt
      rw [update_self] at hv
      rw [update_of_ne hut] at hu
      exact absurd hu (hnew u pos hut hv)
    · rw [update_of_ne hut] at hu
      rw [update_of_ne hvt] at hv
      exact huniq u v pos hut hvt hu hv

/-! ## One step keeps the invariant

Each kind of step gets its own lemma. What changes is always the slot of one ticket, so the work
is to see that no other ticket of the lap, and no other thread, looks at that slot. -/

section Steps

variable {p : Nat} {s : State Tid T} {t : Tid}

omit [DecidableEq Tid] in
theorem Slots.tail_slot (hp : 2 ≤ p) (hs : Slots p s) (hseen : s.tail ≤ s.seq (s.tail % p)) :
    s.tail < s.head + p ∧ s.seq (s.tail % p) = s.tail := by
  have hlt : s.tail < s.head + p := by
    by_contra hfull
    have htail : s.tail = s.head + p := by have := hs.tail_le; omega
    -- a full ring: the slot of `tail` is that of `head`, one lap behind
    have hslot : s.tail % p = s.head % p := by rw [htail, Nat.add_mod_right]
    rcases hs.used s.head (Nat.le_refl _) (by omega) with h | ⟨h, _⟩ <;>
      rw [hslot, h] at hseen <;> omega
  refine ⟨hlt, ?_⟩
  rcases hs.free s.tail (Nat.le_refl _) hlt with h | h
  · exact h
  · omega

omit [DecidableEq Tid] in
theorem Slots.head_slot (hs : Slots p s) (hp : 2 ≤ p)
    (hseen : s.head + 1 ≤ s.seq (s.head % p)) :
    s.head < s.tail ∧ s.seq (s.head % p) = s.head + 1 ∧
      s.data (s.head % p) = s.put[s.head]? := by
  rcases Nat.lt_or_ge s.head s.tail with hlt | hge
  · rcases hs.used s.head (Nat.le_refl _) hlt with h | ⟨h, hd⟩
    · omega
    · exact ⟨hlt, h, hd⟩
  · rcases hs.free s.head hge (by omega) with h | h <;> omega

theorem inv_look (h : Inv p s) {r : Role T} (hr : RoleOk p s r) (hrt : r.ticket = none) :
    Inv p (s.setRole t r) :=
  inv_setRole h.toSlots hr (fun u _ => h.roles u)
    (fun u v pos _ _ hu hv => h.unique u v pos hu hv)
    (fun _ _ _ hpos => by simp [hrt] at hpos)

theorem inv_claimPut (hp : 2 ≤ p) (h : Inv p s) {x : T} (hrole : s.role t = .wantPut s.tail) :
    Inv p ({ s with tail := s.tail + 1, put := s.put ++ [x] }.setRole t (.filling s.tail x)) := by
  have hseen : s.tail ≤ s.seq (s.tail % p) := by simpa [hrole, RoleOk] using h.roles t
  obtain ⟨hlt, hseq⟩ := h.tail_slot hp hseen
  have hput (pos : Nat) (hpos : pos < s.tail) : (s.put ++ [x])[pos]? = s.put[pos]? :=
    List.getElem?_append_left (by rw [h.put_length]; exact hpos)
  have htail : (s.put ++ [x])[s.tail]? = some x := by
    rw [← h.put_length]
    simp
  have hheadle := h.head_le
  refine inv_setRole ⟨by simp only; omega, by simp only; omega, by simp [h.put_length], ?_, ?_⟩
    ⟨hheadle, by simp only; omega, hseq, htail⟩ ?_
    (fun u v pos _ _ hu hv => h.unique u v pos hu hv) ?_
  · intro pos hpos hpos'
    simp only at hpos hpos' ⊢
    rcases Nat.lt_or_ge pos s.tail with hold | hnew
    · rw [hput pos hold]
      exact h.used pos hpos hold
    · rw [show pos = s.tail by omega]
      exact Or.inl hseq
  · intro pos hpos hpos'
    exact h.free pos (by simp only at hpos; omega) hpos'
  · intro u _
    have hu := h.roles u
    cases hru : s.role u <;> rw [hru] at hu
    case outside => trivial
    case wantPut pos => exact hu
    case wantTake pos => exact hu
    case filling pos y =>
      obtain ⟨h1, h2, h3, h4⟩ := hu
      exact ⟨h1, by simp only; omega, h3, by rw [hput pos h2]; exact h4⟩
    case filled pos =>
      obtain ⟨h1, h2, h3, h4⟩ := hu
      exact ⟨h1, by simp only; omega, h3, by rw [hput pos h2]; exact h4⟩
    all_goals
      -- a consumer one lap behind the new ticket would still show its own number on the slot
      rename_i pos
      have hlap : pos + p ≠ s.tail := by
        intro hlap
        have hslot : s.tail % p = pos % p := by rw [← hlap, Nat.add_mod_right]
        have h3 := RoleOk.seq_cases hu rfl
        rw [hslot] at hseq
        omega
    case taking =>
      obtain ⟨h1, h2, h3, h4⟩ := hu
      exact ⟨h1, by simp only; omega, h3, by rw [hput pos (by omega)]; exact h4⟩
    case emptied =>
      obtain ⟨h1, h2, h3⟩ := hu
      exact ⟨h1, by simp only; omega, h3⟩
  · intro u pos _ hpos hu
    simp only [Role.ticket, Option.some.injEq] at hpos
    subst hpos
    rcases (h.roles u).seq_cases hu with ⟨_, h2, _⟩ | ⟨h1, _, _⟩ <;> omega

variable {pos : Nat}

omit [DecidableEq Tid] in
theorem Inv.slot_ne (hp : 2 ≤ p) (h : Inv p s) {u : Tid} {pos' : Nat}
    (ht : (s.role t).ticket = some pos) (hu : (s.role u).ticket = some pos') (hne : u ≠ t) :
    pos' % p ≠ pos % p := by
  intro hslot
  have heq := (h.roles u).ticket_eq hp h.toSlots (h.roles t) hu ht hslot
  subst heq
  exact hne (h.unique u t pos' hu ht)

omit [DecidableEq Tid] in
theorem Inv.published_slot_ne (h : Inv p s) {pos' : Nat} (ht : (s.role t).ticket = some pos)
    (hlo : s.head ≤ pos') (_ : pos' < s.tail) (hseq : s.seq (pos' % p) = pos' + 1) :
    pos' % p ≠ pos % p := by
  intro hslot
  have htl := h.tail_le
  rw [hslot] at hseq
  rcases (h.roles t).seq_cases ht with ⟨h1, h2, h3⟩ | ⟨h1, _, h3⟩
  · have := ticket_eq_of_slot_eq hlo (by omega) h1 (by omega) hslot
    omega
  · omega

theorem inv_setData (hp : 2 ≤ p) (h : Inv p s) {d : Option T} {r : Role T}
    (ht : (s.role t).ticket = some pos) (hrt : r.ticket = some pos)
    (hr : RoleOk p (s.setData (pos % p) d) r) : Inv p ((s.setData (pos % p) d).setRole t r) := by
  have hdata (i : Nat) (hi : i ≠ pos % p) : (s.setData (pos % p) d).data i = s.data i := by
    simp [State.setData, hi]
  refine inv_setRole ⟨h.head_le, h.tail_le, h.put_length, ?_, h.free⟩ hr ?_
    (fun u v q _ _ hu hv => h.unique u v q hu hv) ?_
  · intro pos' hlo hhi
    rcases h.used pos' hlo hhi with hfree | ⟨hseq, hd⟩
    · exact Or.inl hfree
    · refine Or.inr ⟨hseq, ?_⟩
      rw [hdata _ (h.published_slot_ne ht hlo hhi hseq)]
      exact hd
  · intro u hne
    have hu := h.roles u
    have hslot (q : Nat) (hq : (s.role u).ticket = some q) := h.slot_ne hp ht hq hne
    change RoleOk p (s.setData (pos % p) d) (s.role u)
    cases hru : s.role u <;> rw [hru] at hu hslot
    case filled q => exact ⟨hu.1, hu.2.1, hu.2.2.1, by rw [hdata _ (hslot q rfl)]; exact hu.2.2.2⟩
    case taking q => exact ⟨hu.1, hu.2.1, hu.2.2.1, by rw [hdata _ (hslot q rfl)]; exact hu.2.2.2⟩
    all_goals exact hu
  · intro u q hne hq hu
    rw [hrt] at hq
    cases hq
    exact hne (h.unique u t pos hu ht)

/-- A ticket holder may move the number of its slot forward and let go of the ticket, provided
the slot then fits its place in the lap. -/
theorem inv_setSeq (hp : 2 ≤ p) (h : Inv p s) {n : Nat} (ht : (s.role t).ticket = some pos)
    (hmono : s.seq (pos % p) ≤ n) (hused : ∀ q, s.head ≤ q → q < s.tail → q % p = pos % p →
      n = q ∨ (n = q + 1 ∧ s.data (q % p) = s.put[q]?))
    (hfree : ∀ q, s.tail ≤ q → q < s.head + p → q % p = pos % p → n = q ∨ n + p = q + 1) :
    Inv p ((s.setSeq (pos % p) n).setRole t .outside) := by
  have hseq (i : Nat) (hi : i ≠ pos % p) : (s.setSeq (pos % p) n).seq i = s.seq i := by
    simp [State.setSeq, hi]
  have hself : (s.setSeq (pos % p) n).seq (pos % p) = n := by simp [State.setSeq]
  have hge (i : Nat) : s.seq i ≤ (s.setSeq (pos % p) n).seq i := by
    by_cases hi : i = pos % p
    · subst hi; rw [hself]; exact hmono
    · rw [hseq i hi]
  refine inv_setRole ⟨h.head_le, h.tail_le, h.put_length, ?_, ?_⟩ trivial ?_
    (fun u v q _ _ hu hv => h.unique u v q hu hv) (fun _ _ _ hq => by simp [Role.ticket] at hq)
  · intro q hlo hhi
    by_cases hslot : q % p = pos % p
    · have := hused q hlo hhi hslot
      rw [hslot] at this ⊢
      rw [hself]
      exact this
    · rw [hseq _ hslot]
      exact h.used q hlo hhi
  · intro q hlo hhi
    by_cases hslot : q % p = pos % p
    · rw [hslot, hself]
      exact hfree q hlo hhi hslot
    · rw [hseq _ hslot]
      exact h.free q hlo hhi
  · intro u hne
    have hu := h.roles u
    have hslot (q : Nat) (hq : (s.role u).ticket = some q) := hseq _ (h.slot_ne hp ht hq hne)
    change RoleOk p (s.setSeq (pos % p) n) (s.role u)
    cases hru : s.role u <;> rw [hru] at hu hslot
    case outside => trivial
    case wantPut q => exact Nat.le_trans hu (hge _)
    case wantTake q => exact Nat.le_trans hu (hge _)
    case filling q y => exact ⟨hu.1, hu.2.1, by rw [hslot q rfl]; exact hu.2.2.1, hu.2.2.2⟩
    case filled q => exact ⟨hu.1, hu.2.1, by rw [hslot q rfl]; exact hu.2.2.1, hu.2.2.2⟩
    case taking q => exact ⟨hu.1, hu.2.1, by rw [hslot q rfl]; exact hu.2.2.1, hu.2.2.2⟩
    case emptied q => exact ⟨hu.1, hu.2.1, by rw [hslot q rfl]; exact hu.2.2⟩

theorem inv_fill (hp : 2 ≤ p) (h : Inv p s) {x : T} (hrole : s.role t = .filling pos x) :
    Inv p ((s.setData (pos % p) (some x)).setRole t (.filled pos)) := by
  have hr := h.roles t
  rw [hrole] at hr
  obtain ⟨h1, h2, h3, h4⟩ := hr
  refine inv_setData hp h (by rw [hrole]; rfl) rfl ⟨h1, h2, h3, ?_⟩
  simp [State.setData, h4]

theorem inv_publish (hp : 2 ≤ p) (h : Inv p s) (hrole : s.role t = .filled pos) :
    Inv p ((s.setSeq (pos % p) (pos + 1)).setRole t .outside) := by
  have hr := h.roles t
  rw [hrole] at hr
  obtain ⟨h1, h2, h3, h4⟩ := hr
  have htl := h.tail_le
  refine inv_setSeq hp h (by rw [hrole]; rfl) (by omega) ?_ ?_
  · intro q hlo hhi hslot
    have := ticket_eq_of_slot_eq hlo (by omega) h1 (by omega) hslot
    subst this
    exact Or.inr ⟨rfl, h4⟩
  · intro q hlo hhi hslot
    have := ticket_eq_of_slot_eq (by omega) hhi h1 (by omega) hslot
    omega

theorem inv_claimTake (hp : 2 ≤ p) (h : Inv p s) (hrole : s.role t = .wantTake s.head) :
    Inv p ({ s with head := s.head + 1 }.setRole t (.taking s.head)) := by
  have hseen : s.head + 1 ≤ s.seq (s.head % p) := by simpa [hrole, RoleOk] using h.roles t
  obtain ⟨hlt, hseq, hdata⟩ := h.head_slot hp hseen
  have htl := h.tail_le
  refine inv_setRole ⟨hlt, by simp only; omega, h.put_length, ?_, ?_⟩
    ⟨by simp only; omega, htl, hseq, hdata⟩ ?_ (fun u v q _ _ hu hv => h.unique u v q hu hv) ?_
  · intro q hlo hhi
    exact h.used q (by simp only at hlo; omega) hhi
  · intro q hlo hhi
    simp only at hlo hhi ⊢
    rcases Nat.lt_or_ge q (s.head + p) with hold | hnew
    · exact h.free q hlo hold
    · -- the lap moved on: the slot just claimed is the last of the new window
      have hq : q = s.head + p := by omega
      right
      rw [hq, Nat.add_mod_right, hseq]
      omega
  · intro u _
    have hu := h.roles u
    have hproducer (q : Nat) (hlo : s.head ≤ q) (hq : s.seq (q % p) = q) : s.head + 1 ≤ q := by
      rcases Nat.lt_or_ge s.head q with hgt | hle
      · exact hgt
      · rw [show q = s.head by omega, hseq] at hq
        omega
    cases hru : s.role u <;> rw [hru] at hu
    case filling q y => exact ⟨hproducer q hu.1 hu.2.2.1, hu.2.1, hu.2.2.1, hu.2.2.2⟩
    case filled q => exact ⟨hproducer q hu.1 hu.2.2.1, hu.2.1, hu.2.2.1, hu.2.2.2⟩
    case taking q => exact ⟨by have := hu.1; simp only; omega, hu.2.1, hu.2.2.1, hu.2.2.2⟩
    case emptied q => exact ⟨by have := hu.1; simp only; omega, hu.2.1, hu.2.2⟩
    all_goals exact hu
  · intro u q _ hq hu
    simp only [Role.ticket, Option.some.injEq] at hq
    subst hq
    rcases (h.roles u).seq_cases hu with ⟨_, _, h3⟩ | ⟨h1, _, _⟩ <;> omega

theorem inv_remove (hp : 2 ≤ p) (h : Inv p s) (hrole : s.role t = .taking pos) :
    Inv p ((s.setData (pos % p) none).setRole t (.emptied pos)) := by
  have hr := h.roles t
  rw [hrole] at hr
  exact inv_setData hp h (by rw [hrole]; rfl) rfl ⟨hr.1, hr.2.1, hr.2.2.1⟩

theorem inv_release (hp : 2 ≤ p) (h : Inv p s) (hrole : s.role t = .emptied pos) :
    Inv p ((s.setSeq (pos % p) (pos + p)).setRole t .outside) := by
  have hr := h.roles t
  rw [hrole] at hr
  obtain ⟨h1, h2, h3⟩ := hr
  have htl := h.tail_le
  have hhl := h.head_le
  have hslot' : (pos + p) % p = pos % p := Nat.add_mod_right pos p
  -- in the current lap the slot belongs to the ticket `pos + p`, which nobody holds yet
  have hlap (q : Nat) (hlo : s.head ≤ q) (hhi : q < s.head + p) (hslot : q % p = pos % p) :
      q = pos + p :=
    ticket_eq_of_slot_eq hlo hhi (by omega) (by omega) (hslot.trans hslot'.symm)
  refine inv_setSeq hp h (by rw [hrole]; rfl) (by omega) ?_ ?_
  · intro q hlo hhi hslot
    have := hlap q hlo (by omega) hslot
    omega
  · intro q hlo hhi hslot
    exact Or.inl (hlap q (by omega) hhi hslot).symm

end Steps

theorem step_inv (hp : 2 ≤ p) {s' : State Tid T} (h : Inv p s) (hstep : Step p s s') :
    Inv p s' := by
  cases hstep with
  | leave t _ => exact inv_look h trivial rfl
  | seeFree t pos _ hseq => exact inv_look h (Nat.le_of_eq hseq.symm) rfl
  | seeFull t pos _ hseq => exact inv_look h (Nat.le_of_eq hseq.symm) rfl
  | claimPut t x hrole => exact inv_claimPut hp h hrole
  | fill t pos x hrole => exact inv_fill hp h hrole
  | publish t pos hrole => exact inv_publish hp h hrole
  | claimTake t hrole => exact inv_claimTake hp h hrole
  | remove t pos hrole => exact inv_remove hp h hrole
  | release t pos hrole => exact inv_release hp h hrole

omit [DecidableEq Tid] in
/-- **No slot is owned twice.** Two threads that hold tickets on one slot are one thread. -/
theorem owner_unique (hp : 2 ≤ p) (h : Inv p s) {t u : Tid} {pos pos' : Nat}
    (ht : (s.role t).ticket = some pos) (hu : (s.role u).ticket = some pos')
    (hslot : pos % p = pos' % p) : t = u := by
  by_contra hne
  exact h.slot_ne hp hu ht hne hslot

/-! ## Behind every stale number there is a ticket holder

A slot between the cursors that still shows its own ticket is being filled, and a slot past `tail`
that still shows the previous lap is being emptied: in both cases by a thread that holds the
ticket. -/

/-- A slot that is being filled or emptied has someone at work on it. -/
structure Attended (p : Nat) (s : State Tid T) : Prop where
  filling : ∀ pos, s.head ≤ pos → pos < s.tail → s.seq (pos % p) = pos →
    ∃ t, (s.role t).ticket = some pos
  emptying : ∀ pos, s.tail ≤ pos → pos < s.head + p → s.seq (pos % p) + p = pos + 1 →
    ∃ t q, (s.role t).ticket = some q ∧ q + p = pos

omit [DecidableEq Tid] in
theorem attended_fresh (hp : 2 ≤ p) : Attended p (State.fresh : State Tid T) where
  filling := by intro pos _ h; exact absurd h (Nat.not_lt_zero _)
  emptying := by
    intro pos _ hlt hseq
    simp only [State.fresh, Nat.zero_add] at hlt hseq
    rw [Nat.mod_eq_of_lt hlt] at hseq
    omega

section Attended

variable {p : Nat} {s : State Tid T} {t : Tid}

theorem Attended.setRole (h : Attended p s) {r : Role T}
    (hkeep : ∀ pos, (s.role t).ticket = some pos → r.ticket = some pos) :
    Attended p (s.setRole t r) := by
  have hholds (u : Tid) (pos : Nat) (hu : (s.role u).ticket = some pos) :
      ((s.setRole t r).role u).ticket = some pos := by
    by_cases hut : u = t
    · subst hut
      simpa [State.setRole] using hkeep pos hu
    · simpa [State.setRole, hut] using hu
  constructor
  · intro pos hlo hhi hseq
    obtain ⟨u, hu⟩ := h.filling pos hlo hhi hseq
    exact ⟨u, hholds u pos hu⟩
  · intro pos hlo hhi hseq
    obtain ⟨u, q, hu, hq⟩ := h.emptying pos hlo hhi hseq
    exact ⟨u, q, hholds u q hu, hq⟩

theorem Attended.claimPut (h : Attended p s) {x : T} (hrole : s.role t = .wantPut s.tail) :
    Attended p
      ({ s with tail := s.tail + 1, put := s.put ++ [x] }.setRole t (.filling s.tail x)) := by
  -- `t` held no ticket, so whoever held one still does
  have hother (u : Tid) (pos : Nat) (hu : (s.role u).ticket = some pos) : u ≠ t := by
    rintro rfl
    simp [hrole, Role.ticket] at hu
  constructor
  · intro pos hlo hhi hseq
    simp only [State.setRole] at hlo hhi hseq ⊢
    rcases Nat.lt_or_ge pos s.tail with hold | hnew
    · obtain ⟨u, hu⟩ := h.filling pos hlo hold hseq
      exact ⟨u, by simpa [hother u pos hu] using hu⟩
    · have hpos : pos = s.tail := by omega
      exact ⟨t, by simp [hpos, Role.ticket]⟩
  · intro pos hlo hhi hseq
    simp only [State.setRole] at hlo hhi hseq ⊢
    obtain ⟨u, q, hu, hq⟩ := h.emptying pos (by omega) hhi hseq
    exact ⟨u, q, by simpa [hother u q hu] using hu, hq⟩

theorem Attended.claimTake (h : Attended p s) (hrole : s.role t = .wantTake s.head) :
    Attended p ({ s with head := s.head + 1 }.setRole t (.taking s.head)) := by
  have hother (u : Tid) (pos : Nat) (hu : (s.role u).ticket = some pos) : u ≠ t := by
    rintro rfl
    simp [hrole, Role.ticket] at hu
  constructor
  · intro pos hlo hhi hseq
    simp only [State.setRole] at hlo hhi hseq ⊢
    obtain ⟨u, hu⟩ := h.filling pos (by omega) hhi hseq
    exact ⟨u, by simpa [hother u pos hu] using hu⟩
  · intro pos hlo hhi hseq
    simp only [State.setRole] at hlo hhi hseq ⊢
    rcases Nat.lt_or_ge pos (s.head + p) with hold | hnew
    · obtain ⟨u, q, hu, hq⟩ := h.emptying pos hlo hold hseq
      exact ⟨u, q, by simpa [hother u q hu] using hu, hq⟩
    · -- the window moved on by the slot that was just claimed
      have hpos : s.head + p = pos := by omega
      exact ⟨t, s.head, by simp [Role.ticket], hpos⟩

variable {pos : Nat}

theorem Attended.setSeq (h : Attended p s) {n : Nat} (ht : (s.role t).ticket = some pos)
    (hused : ∀ q, s.head ≤ q → q < s.tail → q % p = pos % p → n ≠ q)
    (hfree : ∀ q, s.tail ≤ q → q < s.head + p → q % p = pos % p → n + p ≠ q + 1) :
    Attended p ((s.setSeq (pos % p) n).setRole t .outside) := by
  have hseq (i : Nat) (hi : i ≠ pos % p) : (s.setSeq (pos % p) n).seq i = s.seq i := by
    simp [State.setSeq, hi]
  have hself : (s.setSeq (pos % p) n).seq (pos % p) = n := by simp [State.setSeq]
  have hother (u : Tid) (q : Nat) (hu : (s.role u).ticket = some q) (hne : q ≠ pos) :
      (((s.setSeq (pos % p) n).setRole t .outside).role u).ticket = some q := by
    have hut : u ≠ t := by
      rintro rfl
      rw [ht] at hu
      cases hu
      exact hne rfl
    simpa [State.setRole, State.setSeq, hut] using hu
  constructor
  · intro q hlo hhi hq
    by_cases hslot : q % p = pos % p
    · have hcur : (s.setSeq (pos % p) n).seq (q % p) = q := hq
      rw [hslot, hself] at hcur
      exact absurd hcur (hused q hlo hhi hslot)
    · have hold : s.seq (q % p) = q := (hseq _ hslot).symm.trans hq
      obtain ⟨u, hu⟩ := h.filling q hlo hhi hold
      refine ⟨u, hother u q hu ?_⟩
      rintro rfl
      exact hslot rfl
  · intro q hlo hhi hq
    by_cases hslot : q % p = pos % p
    · have hlag : (s.setSeq (pos % p) n).seq (q % p) + p = q + 1 := hq
      rw [hslot, hself] at hlag
      exact absurd hlag (hfree q hlo hhi hslot)
    · have hold : s.seq (q % p) + p = q + 1 := by
        rw [← hseq _ hslot]
        exact hq
      obtain ⟨u, r, hu, hr⟩ := h.emptying q hlo hhi hold
      refine ⟨u, r, hother u r hu ?_, hr⟩
      rintro rfl
      exact hslot (by rw [← hr, Nat.add_mod_right])

theorem Attended.publish (h : Attended p s) (hinv : Inv p s) (hrole : s.role t = .filled pos) :
    Attended p ((s.setSeq (pos % p) (pos + 1)).setRole t .outside) := by
  have hr := hinv.roles t
  rw [hrole] at hr
  obtain ⟨h1, h2, -, -⟩ := hr
  have htl := hinv.tail_le
  apply h.setSeq (by rw [hrole]; rfl)
  · intro q hlo hhi hslot
    have := ticket_eq_of_slot_eq hlo (by omega) h1 (by omega) hslot
    omega
  · intro q hlo hhi hslot
    have := ticket_eq_of_slot_eq (by omega) hhi h1 (by omega) hslot
    omega

theorem Attended.release (hp : 2 ≤ p) (h : Attended p s) (hinv : Inv p s)
    (hrole : s.role t = .emptied pos) :
    Attended p ((s.setSeq (pos % p) (pos + p)).setRole t .outside) := by
  have hr := hinv.roles t
  rw [hrole] at hr
  obtain ⟨-, h2, -⟩ := hr
  apply h.setSeq (by rw [hrole]; rfl)
  · intro q hlo hhi hslot
    omega
  · intro q hlo hhi hslot hq
    -- the slot would belong to two neighbouring tickets
    apply show (q + 1) % p ≠ q % p from slot_ne_succ hp
    rw [← hq, Nat.add_mod_right, Nat.add_mod_right, hslot]

theorem Attended.step (hp : 2 ≤ p) {s' : State Tid T} (h : Attended p s) (hinv : Inv p s)
    (hstep : Step p s s') : Attended p s' := by
  cases hstep with
  | leave t hrole => exact h.setRole fun pos hpos => by simp [hrole] at hpos
  | seeFree t pos hrole _ => exact h.setRole fun pos hpos => by simp [hrole] at hpos
  | seeFull t pos hrole _ => exact h.setRole fun pos hpos => by simp [hrole] at hpos
  | claimPut t x hrole => exact h.claimPut hrole
  | fill t pos x hrole =>
    exact Attended.setRole (s := s.setData (pos % p) (some x)) ⟨h.filling, h.emptying⟩
      fun q hq => by simpa [State.setData, hrole, Role.ticket] using hq
  | publish t pos hrole => exact h.publish hinv hrole
  | claimTake t hrole => exact h.claimTake hrole
  | remove t pos hrole =>
    exact Attended.setRole (s := s.setData (pos % p) none) ⟨h.filling, h.emptying⟩
      fun q hq => by simpa [State.setData, hrole, Role.ticket] using hq
  | release t pos hrole => exact h.release hp hinv hrole

end Attended

/-! ## What a thread can read off one slot -/

section Readings

variable {p : Nat} {s : State Tid T}

omit [DecidableEq Tid]

variable {pos : Nat}

theorem lap_exists {a : Nat} (hp : 0 < p) (h : pos < a) :
    ∃ q, a ≤ q ∧ q < a + p ∧ q % p = pos % p ∧ pos + p ≤ q := by
  have hdiv := Nat.div_add_mod (a - pos + p - 1) p
  have hmod := Nat.mod_lt (a - pos + p - 1) hp
  have hlap : 1 ≤ (a - pos + p - 1) / p := (Nat.one_le_div_iff hp).mpr (by omega)
  have hge : p ≤ p * ((a - pos + p - 1) / p) := Nat.le_mul_of_pos_right p hlap
  exact ⟨pos + p * ((a - pos + p - 1) / p), by omega, by omega, Nat.add_mul_mod_self_left _ _ _,
    by omega⟩

theorem Slots.seq_of_lt_head (hp : 0 < p) (hs : Slots p s) (h : pos < s.head) :
    pos + 1 ≤ s.seq (pos % p) := by
  obtain ⟨q, hlo, hhi, hslot, hlap⟩ := lap_exists hp h
  rw [← hslot]
  rcases Nat.lt_or_ge q s.tail with hused | hfree
  · rcases hs.used q hlo hused with hq | ⟨hq, -⟩ <;> omega
  · rcases hs.free q hfree hhi with hq | hq <;> omega

theorem Slots.seq_of_lt_tail (hp : 0 < p) (hs : Slots p s) (h : pos < s.tail) :
    pos ≤ s.seq (pos % p) := by
  rcases Nat.lt_or_ge pos s.head with hgone | hheld
  · exact Nat.le_of_succ_le (hs.seq_of_lt_head hp hgone)
  · rcases hs.used pos hheld h with hq | ⟨hq, -⟩ <;> omega

/-- **A producer that finds its slot a lap behind** stands before a full ring, or before a consumer
that has claimed the slot and not released it yet. -/
theorem full_or_emptying (hp : 0 < p) (hinv : Inv p s) (hatt : Attended p s) (hpos : pos ≤ s.tail)
    (hseq : s.seq (pos % p) < pos) :
    s.tail = s.head + p ∨ ∃ t q, (s.role t).ticket = some q ∧ q < s.head := by
  have htail : pos = s.tail := by
    by_contra hne
    have := hinv.toSlots.seq_of_lt_tail hp (show pos < s.tail by omega)
    omega
  subst htail
  rcases Nat.lt_or_ge s.tail (s.head + p) with hroom | hfull
  · right
    rcases hinv.free s.tail (Nat.le_refl _) hroom with hcur | hlag
    · omega
    · obtain ⟨t, q, ht, hq⟩ := hatt.emptying s.tail (Nat.le_refl _) hroom hlag
      exact ⟨t, q, ht, by omega⟩
  · left
    have := hinv.tail_le
    omega

/-- **A consumer that finds its slot not published** stands before an empty ring, or before a
producer that has claimed that very ticket and not published it yet. -/
theorem empty_or_filling (hp : 0 < p) (hinv : Inv p s) (hatt : Attended p s) (hpos : pos ≤ s.head)
    (hseq : s.seq (pos % p) < pos + 1) :
    pos = s.head ∧ (s.tail = s.head ∨ ∃ t, (s.role t).ticket = some pos) := by
  have hhead : pos = s.head := by
    by_contra hne
    have := hinv.toSlots.seq_of_lt_head hp (show pos < s.head by omega)
    omega
  refine ⟨hhead, ?_⟩
  have hle := hinv.head_le
  rcases Nat.lt_or_ge pos s.tail with hitem | hnone
  · right
    rcases hinv.used pos (by omega) hitem with hq | ⟨hq, -⟩
    · exact hatt.filling pos (by omega) hitem hq
    · omega
  · left
    omega

theorem Attended.seq_free (hatt : Attended p s) (hinv : Inv p s)
    (hnone : ∀ t, (s.role t).ticket = none) (hlo : s.tail ≤ pos) (hhi : pos < s.head + p) :
    s.seq (pos % p) = pos := by
  rcases hinv.free pos hlo hhi with hcur | hlag
  · exact hcur
  · obtain ⟨t, q, ht, -⟩ := hatt.emptying pos hlo hhi hlag
    simp [hnone t] at ht

theorem Attended.seq_used (hatt : Attended p s) (hinv : Inv p s)
    (hnone : ∀ t, (s.role t).ticket = none) (hlo : s.head ≤ pos) (hhi : pos < s.tail) :
    s.seq (pos % p) = pos + 1 := by
  rcases hinv.used pos hlo hhi with hown | ⟨hpub, -⟩
  · obtain ⟨t, ht⟩ := hatt.filling pos hlo hhi hown
    simp [hnone t] at ht
  · exact hpub

end Readings

end Muses.Core.TicketRing
