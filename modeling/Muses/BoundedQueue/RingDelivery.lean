import Muses.BoundedQueue.Ring
import Muses.Core.TicketRing

/-!
# The ring delivers every claimed item once

`RingImpl` refines the ticket-ring protocol: reading a program counter as a role turns each atomic
access of `push`, `evict_one` and `try_pop` into a protocol step, or into nothing at all
(`step_refines`). The protocol invariant then gives, in every reachable state and for every
interleaving of any number of threads:

* no two threads own the payload of one cell;
* the cursors differ by at most the number of cells.
-/

namespace Muses.RingImpl

open Muses.Core Function List

variable {Tid T : Type*}

/-! ## Program counters as protocol roles -/

/-- The role a program counter plays in the ticket-ring protocol. Producers that evict play the
consumer's part. -/
def Pc.role : Pc T → TicketRing.Role T
  | .pushCas _ pos => .wantPut pos
  | .pushEmplace item pos => .filling pos item
  | .pushStore pos => .filled pos
  | .evictCas _ pos => .wantTake pos
  | .evictReset _ pos => .taking pos
  | .evictStore _ pos => .emptied pos
  | .popCas _ pos => .wantTake pos
  | .popMove _ pos => .taking pos
  | .popReset _ pos _ => .taking pos
  | .popStore _ pos _ => .emptied pos
  | _ => .outside

def State.protocol (s : State Tid T) : TicketRing.State Tid T where
  seq := fun i => (s.ring i).sequence
  data := fun i => (s.ring i).data
  tail := s.enqueuePos
  head := s.dequeuePos
  role := fun t => (s.pc t).role
  put := s.claims

/-- `c` owns the payload of cell `i`: it has won the position that maps there and has not yet
stored the cell's next sequence number. -/
def Pc.Owns (cfg : Config) (c : Pc T) (i : Nat) : Prop :=
  ∃ pos, c.role.ticket = some pos ∧ pos &&& cfg.mask = i

@[simp] theorem onEmpty_role (k : PopCaller) : (k.onEmpty : Pc T).role = .outside := by
  cases k <;> rfl

section

variable [DecidableEq Tid]

@[simp] theorem protocol_setPc (s : State Tid T) (t : Tid) (c : Pc T) :
    (s.setPc t c).protocol = s.protocol.setRole t c.role := by
  simp only [State.protocol, State.setPc, TicketRing.State.setRole, TicketRing.State.mk.injEq,
    true_and, and_true]
  funext u
  by_cases hu : u = t
  · subst hu; simp
  · simp [hu]

omit [DecidableEq Tid] in
@[simp] theorem protocol_storeSeq (s : State Tid T) (i n : Nat) :
    (s.storeSeq i n).protocol = s.protocol.setSeq i n := by
  simp only [State.protocol, State.storeSeq, TicketRing.State.setSeq, TicketRing.State.mk.injEq,
    and_true]
  constructor <;> funext j <;> by_cases hj : j = i
  · subst hj; simp
  · simp [hj]
  · subst hj; simp
  · simp [hj]

omit [DecidableEq Tid] in
@[simp] theorem protocol_storeData (s : State Tid T) (i : Nat) (d : Option T) :
    (s.storeData i d).protocol = s.protocol.setData i d := by
  simp only [State.protocol, State.storeData, TicketRing.State.setData, TicketRing.State.mk.injEq,
    and_true]
  constructor <;> funext j <;> by_cases hj : j = i
  · subst hj; simp
  · simp [hj]
  · subst hj; simp
  · simp [hj]

/-! ## Every atomic access is a protocol step -/

variable {c : Pc T} {pos : Nat} {l : Tid × Act T}

variable {cfg : Config} {s s' : State Tid T} {t : Tid}

theorem seeFull_of_seq {c₀ : Pc T} (hpc : s.pc t = c₀) (hrole : c₀.role.ticket = none)
    (hc : c.role = .wantTake pos) (hseq : (s.ring (pos &&& cfg.mask)).sequence = pos + 1) :
    TicketRing.Step cfg.slots s.protocol (s.setPc t c).protocol := by
  rw [protocol_setPc, hc]
  refine .seeFull s.protocol t pos (by rw [← hrole, ← hpc]; rfl) ?_
  rwa [cfg.and_mask] at hseq

theorem leave_of_outside {m : State Tid T} {c₀ : Pc T} (hm : m.protocol = s.protocol)
    (hpc : s.pc t = c₀) (hrole : c₀.role.ticket = none) (hc : c.role = .outside) :
    TicketRing.Step cfg.slots s.protocol (m.setPc t c).protocol := by
  rw [protocol_setPc, hc, hm]
  exact .leave s.protocol t (by rw [← hrole, ← hpc]; rfl)

/-- **The ring refines the protocol.** Every step of the machine is a protocol step or leaves the
protocol state alone. -/
theorem step_refines (h : step cfg s l = some s') :
    s'.protocol = s.protocol ∨ TicketRing.Step cfg.slots s.protocol s'.protocol := by
  obtain ⟨t, a⟩ := l
  obtain ⟨c, m, hperforms, rfl⟩ := step_performs h
  generalize hpc : s.pc t = c₀ at hperforms
  have hrole {r : TicketRing.Role T} (hr : c₀.role = r) : s.protocol.role t = r := by
    rw [← hr, ← hpc]
    rfl
  cases hperforms with
  | pushSee hseq =>
    rw [protocol_setPc]
    refine .inr (.seeFree s.protocol t _ (by rw [hrole rfl]; rfl) ?_)
    rwa [cfg.and_mask] at hseq
  | evictSee hseq | popSee hseq => exact .inr (seeFull_of_seq hpc rfl rfl hseq)
  | claimPut =>
    rw [protocol_setPc]
    exact .inr (.claimPut s.protocol t _ (hrole rfl))
  | evictClaim | popClaim =>
    rw [protocol_setPc]
    exact .inr (.claimTake s.protocol t (hrole rfl))
  | emplace =>
    rw [protocol_setPc, protocol_storeData, cfg.and_mask]
    exact .inr (.fill s.protocol t _ _ (hrole rfl))
  | publish =>
    rw [protocol_setPc, protocol_storeSeq, cfg.and_mask]
    exact .inr (.publish s.protocol t _ (hrole rfl))
  | evictReset | popReset =>
    rw [protocol_setPc, protocol_storeData, cfg.and_mask]
    exact .inr (.remove s.protocol t _ (hrole rfl))
  | evictStore | popStore =>
    rw [protocol_setPc, protocol_storeSeq, cfg.and_mask]
    exact .inr (.release s.protocol t _ (hrole rfl))
  | @popMove flag k pos v hdata =>
    -- the cell stays engaged until the reset, so this access is the one the protocol does not see
    have hsame : (Pc.popReset k pos v).role = (s.pc t).role := by rw [hpc]; rfl
    refine .inl (Eq.trans (protocol_setPc _ t _) ?_)
    rw [hsame]
    simp [TicketRing.State.setRole, State.protocol, update_eq_self]
  | @popNone flag k => exact .inr (leave_of_outside rfl hpc rfl (onEmpty_role k))
  | _ => exact .inr (leave_of_outside rfl hpc rfl rfl)

theorem protocol_inv (hcap : 2 ≤ cfg.capacity) {acts : List (Tid × Act T)}
    (hrun : exec (step cfg) State.init acts = some s) :
    TicketRing.Inv cfg.slots s.protocol := by
  refine exec_invariant (I := fun s => TicketRing.Inv cfg.slots s.protocol) ?_ ?_ hrun
  · intro s l s' hinv hstep
    rcases step_refines hstep with heq | hprot
    · rw [heq]; exact hinv
    · exact TicketRing.step_inv (Config.two_le_slots hcap) hinv hprot
  · exact TicketRing.inv_fresh cfg.slots

/-! ## What a step adds to the history -/

def Pc.awaits : Pc T → Option Nat
  | .popMove _ pos => some pos
  | _ => none

def Pc.carries : Pc T → Option T
  | .popReset _ _ v => some v
  | .popStore _ _ v => some v
  | .idle (some (.popped (some v))) => some v
  | _ => none

/-- What a step does to the positions, the departures and the hands. -/
inductive Effect (cfg : Config) (s : State Tid T) (t : Tid) (s' : State Tid T) : Prop where
  | quiet (c : Pc T) (hpc : s'.pc = update s.pc t c)
      (hdeq : s'.dequeuePos = s.dequeuePos) (hdep : s'.departures = s.departures)
      (hhand : s'.handed = s.handed) (hclaims : s.claims <+: s'.claims)
      (hawait : c.awaits = none) (hcarry : c.carries = none ∨ c.carries = (s.pc t).carries)
  | depart (c : Pc T) (kind : Departure) (hpc : s'.pc = update s.pc t c)
      (hdeq : s'.dequeuePos = s.dequeuePos + 1)
      (hdep : s'.departures = s.departures ++ [(s.dequeuePos, kind)])
      (hhand : s'.handed = s.handed) (hclaims : s'.claims = s.claims)
      (hawait : c.awaits = none ∨ kind = .popped ∧ c.awaits = some s.dequeuePos)
      (hcarry : c.carries = none)
  | hand (c : Pc T) (pos : Nat) (v : T) (hpc : s'.pc = update s.pc t c)
      (hdeq : s'.dequeuePos = s.dequeuePos) (hdep : s'.departures = s.departures)
      (hhand : s'.handed = s.handed ++ [(pos, v)]) (hclaims : s'.claims = s.claims)
      (hfrom : (s.pc t).awaits = some pos)
      (hdata : (s.ring (pos &&& cfg.mask)).data = some v)
      (hawait : c.awaits = none) (hcarry : c.carries = some v)

theorem quiet_of_setPc {m : State Tid T} (hpc : m.pc = s.pc) (hdeq : m.dequeuePos = s.dequeuePos)
    (hdep : m.departures = s.departures) (hhand : m.handed = s.handed)
    (hclaims : s.claims <+: m.claims) (hawait : c.awaits = none)
    (hcarry : c.carries = none ∨ c.carries = (s.pc t).carries) : Effect cfg s t (m.setPc t c) :=
  .quiet c (by simp [State.setPc, hpc]) hdeq hdep hhand hclaims hawait hcarry

theorem step_effect (h : step cfg s l = some s') : Effect cfg s l.1 s' := by
  obtain ⟨t, a⟩ := l
  obtain ⟨c, m, hperforms, rfl⟩ := step_performs h
  generalize hpc : s.pc t = c₀ at hperforms
  cases hperforms with
  | claimPut =>
    exact quiet_of_setPc rfl rfl rfl rfl (prefix_append _ _) rfl (.inl rfl)
  | evictClaim => exact .depart _ .evicted rfl rfl rfl rfl rfl (.inl rfl) rfl
  | popClaim => exact .depart _ .popped rfl rfl rfl rfl rfl (.inr ⟨rfl, rfl⟩) rfl
  | @popMove flag k pos v hdata =>
    exact .hand _ pos v rfl rfl rfl rfl rfl (by rw [hpc]; rfl) hdata rfl rfl
  | popReset | popStore =>
    exact quiet_of_setPc rfl rfl rfl rfl (prefix_refl _) rfl (.inr (by rw [hpc]; rfl))
  | @popNone flag k =>
    refine quiet_of_setPc rfl rfl rfl rfl (prefix_refl _) ?_ (.inl ?_) <;> cases k <;> rfl
  | _ => exact quiet_of_setPc rfl rfl rfl rfl (prefix_refl _) rfl (.inl rfl)

theorem step_history (h : step cfg s l = some s') :
    s.claims <+: s'.claims ∧ s.departures <+: s'.departures ∧ s.dequeuePos ≤ s'.dequeuePos := by
  cases step_effect h with
  | quiet c hpc hdeq hdep hhand hclaims =>
    exact ⟨hclaims, hdep ▸ prefix_refl _, Nat.le_of_eq hdeq.symm⟩
  | depart c kind hpc hdeq hdep hhand hclaims =>
    exact ⟨hclaims ▸ prefix_refl _, hdep ▸ prefix_append _ _, by omega⟩
  | hand c pos v hpc hdeq hdep hhand hclaims =>
    exact ⟨hclaims ▸ prefix_refl _, hdep ▸ prefix_refl _, Nat.le_of_eq hdeq.symm⟩

/-! ## Exactly-once delivery -/

/-- The dequeue history of a ring: positions are used up in order; what a pop was handed is the
item claimed at that position; no position is handed out twice; and every item a pop carries or
has returned was handed to it. -/
structure Delivered (s : State Tid T) : Prop where
  positions : s.departures.map Prod.fst = List.range s.dequeuePos
  handed_item : ∀ pos v, (pos, v) ∈ s.handed → s.claims[pos]? = some v
  handed_popped : ∀ pos v, (pos, v) ∈ s.handed → (pos, Departure.popped) ∈ s.departures
  handed_once : (s.handed.map Prod.fst).Nodup
  waiting : ∀ t pos, (s.pc t).awaits = some pos →
    (pos, Departure.popped) ∈ s.departures ∧ pos ∉ s.handed.map Prod.fst
  carried : ∀ t v, (s.pc t).carries = some v → v ∈ s.handed.map Prod.snd

omit [DecidableEq Tid] in
theorem delivered_init : Delivered (State.init : State Tid T) where
  positions := rfl
  handed_item := by simp [State.init]
  handed_popped := by simp [State.init]
  handed_once := nodup_nil
  waiting := by simp [State.init, Pc.awaits]
  carried := by simp [State.init, Pc.carries]

omit [DecidableEq Tid] in
theorem Delivered.lt_dequeuePos (h : Delivered s) {kind : Departure}
    (hpos : (pos, kind) ∈ s.departures) : pos < s.dequeuePos := by
  have hmem : pos ∈ s.departures.map Prod.fst := mem_map_of_mem hpos
  rw [h.positions] at hmem
  exact mem_range.mp hmem

theorem role_of_awaits (h : c.awaits = some pos) : c.role = .taking pos := by
  cases c <;> simp_all [Pc.awaits, Pc.role]

theorem effect_delivered (hinv : TicketRing.Inv cfg.slots s.protocol)
    (h : Delivered s) (heff : Effect cfg s t s') : Delivered s' := by
  cases heff with
  | quiet c hpc hdeq hdep hhand hclaims hawait hcarry =>
    refine ⟨by rw [hdep, hdeq]; exact h.positions, ?_, by rw [hhand, hdep]; exact h.handed_popped,
      by rw [hhand]; exact h.handed_once, ?_, ?_⟩
    · intro pos v hmem
      rw [hhand] at hmem
      obtain ⟨more, hmore⟩ := hclaims
      have hold := h.handed_item pos v hmem
      rw [← hmore, List.getElem?_append_left (List.getElem?_eq_some_iff.mp hold).1]
      exact hold
    · intro u pos hu
      rw [hdep, hhand]
      by_cases hut : u = t
      · subst hut; rw [hpc, update_self, hawait] at hu; cases hu
      · rw [hpc, update_of_ne hut] at hu
        exact h.waiting u pos hu
    · intro u v hu
      rw [hhand]
      by_cases hut : u = t
      · subst hut
        rw [hpc, update_self] at hu
        rcases hcarry with hcarry | hcarry <;> rw [hcarry] at hu
        · cases hu
        · exact h.carried u v hu
      · rw [hpc, update_of_ne hut] at hu
        exact h.carried u v hu
  | depart c kind hpc hdeq hdep hhand hclaims hawait hcarry =>
    refine ⟨?_, by rw [hhand, hclaims]; exact h.handed_item, ?_, by rw [hhand]; exact h.handed_once,
      ?_, ?_⟩
    · rw [hdep, hdeq, map_append, h.positions, range_succ]
      rfl
    · intro pos v hmem
      rw [hhand] at hmem
      rw [hdep]
      exact mem_append_left _ (h.handed_popped pos v hmem)
    · intro u pos hu
      rw [hdep, hhand]
      by_cases hut : u = t
      · subst hut
        rw [hpc, update_self] at hu
        rcases hawait with hawait | ⟨rfl, hawait⟩ <;> rw [hawait] at hu <;> cases hu
        refine ⟨mem_append_right _ (mem_singleton.mpr rfl), ?_⟩
        -- positions handed out so far lie below the cursor that was just claimed
        intro hmem
        obtain ⟨⟨pos, v⟩, hmem, hpos⟩ := mem_map.mp hmem
        have := h.lt_dequeuePos (h.handed_popped pos v hmem)
        simp only at hpos
        omega
      · rw [hpc, update_of_ne hut] at hu
        have hold := h.waiting u pos hu
        exact ⟨mem_append_left _ hold.1, hold.2⟩
    · intro u v hu
      rw [hhand]
      by_cases hut : u = t
      · subst hut; rw [hpc, update_self, hcarry] at hu; cases hu
      · rw [hpc, update_of_ne hut] at hu
        exact h.carried u v hu
  | hand c pos v hpc hdeq hdep hhand hclaims hfrom hdata hawait hcarry =>
    have hrole : s.protocol.role t = .taking pos := role_of_awaits hfrom
    have hitem : s.claims[pos]? = some v := by
      have hr := hinv.roles t
      rw [hrole] at hr
      have hcell : (s.ring (pos % cfg.slots)).data = s.claims[pos]? := hr.2.2.2
      rw [← hcell, ← cfg.and_mask]
      exact hdata
    obtain ⟨hdeparted, hfresh⟩ := h.waiting t pos hfrom
    refine ⟨by rw [hdep, hdeq]; exact h.positions, ?_, ?_, ?_, ?_, ?_⟩
    · intro q w hmem
      rw [hhand, mem_append, mem_singleton] at hmem
      rw [hclaims]
      rcases hmem with hmem | hmem
      · exact h.handed_item q w hmem
      · cases hmem; exact hitem
    · intro q w hmem
      rw [hhand, mem_append, mem_singleton] at hmem
      rw [hdep]
      rcases hmem with hmem | hmem
      · exact h.handed_popped q w hmem
      · cases hmem; exact hdeparted
    · rw [hhand, map_append, nodup_append]
      refine ⟨h.handed_once, by simp, ?_⟩
      intro a ha b hb
      simp only [map_cons, map_nil, mem_singleton] at hb
      subst hb
      rintro rfl
      exact hfresh ha
    · intro u q hu
      by_cases hut : u = t
      · subst hut; rw [hpc, update_self, hawait] at hu; cases hu
      · rw [hpc, update_of_ne hut] at hu
        obtain ⟨hq, hqfresh⟩ := h.waiting u q hu
        refine ⟨by rw [hdep]; exact hq, ?_⟩
        rw [hhand, map_append, mem_append]
        rintro (hmem | hmem)
        · exact hqfresh hmem
        · -- two threads about to move out of one position would be one thread
          simp only [map_cons, map_nil, mem_singleton] at hmem
          subst hmem
          have hrole' : s.protocol.role u = .taking q := role_of_awaits hu
          exact hut (hinv.unique u t q (by rw [hrole']; rfl) (by rw [hrole]; rfl))
    · intro u w hu
      rw [hhand, map_append]
      by_cases hut : u = t
      · subst hut
        rw [hpc, update_self, hcarry] at hu
        cases hu
        exact mem_append_right _ (mem_singleton.mpr rfl)
      · rw [hpc, update_of_ne hut] at hu
        exact mem_append_left _ (h.carried u w hu)

theorem run_delivered (hcap : 2 ≤ cfg.capacity) {acts : List (Tid × Act T)}
    (hrun : exec (step cfg) State.init acts = some s) : Delivered s := by
  have hp := Config.two_le_slots hcap
  suffices h : TicketRing.Inv cfg.slots s.protocol ∧ Delivered s from h.2
  refine exec_invariant (I := fun s => TicketRing.Inv cfg.slots s.protocol ∧ Delivered s) ?_
    ⟨TicketRing.inv_fresh cfg.slots, delivered_init⟩ hrun
  rintro s l s' ⟨hinv, hdel⟩ hstep
  refine ⟨?_, effect_delivered hinv hdel (step_effect hstep)⟩
  rcases step_refines hstep with heq | hprot
  · rw [heq]; exact hinv
  · exact TicketRing.step_inv hp hinv hprot

def State.pops (s : State Tid T) : Nat := s.departures.countP fun d => d.2 = .popped

def State.evictions (s : State Tid T) : Nat := s.departures.countP fun d => d.2 = .evicted

omit [DecidableEq Tid] in
theorem pops_add_evictions (s : State Tid T) : s.pops + s.evictions = s.departures.length := by
  unfold State.pops State.evictions
  induction s.departures with
  | nil => rfl
  | cons d ds ih =>
    obtain ⟨pos, kind⟩ := d
    cases kind <;> simp <;> omega

/-- **Exactly-once delivery.** In every state a ring of at least two cells reaches, for any
threads and any interleaving of their atomic accesses:
dequeue positions leave in order and once each; a pop is handed the item claimed at its position,
once, and returns an item that was pushed; whoever is about to take a payload finds there the item
of its position; no cell's payload has two owners; and the claims are accounted for. -/
theorem ring_exactly_once {cfg : Config} (hcap : 2 ≤ cfg.capacity) {acts : List (Tid × Act T)}
    {s : State Tid T} (hrun : exec (step cfg) State.init acts = some s) :
    s.departures.map Prod.fst = List.range s.dequeuePos ∧
    (∀ pos v, (pos, v) ∈ s.handed →
      s.claims[pos]? = some v ∧ (pos, Departure.popped) ∈ s.departures) ∧
    (s.handed.map Prod.fst).Nodup ∧
    (∀ t v, (s.pc t).carries = some v → v ∈ s.handed.map Prod.snd ∧ v ∈ s.claims) ∧
    (∀ t pos, (s.pc t).role = .taking pos →
      (s.ring (pos &&& cfg.mask)).data = s.claims[pos]? ∧ pos < s.claims.length) ∧
    (∀ t u i, (s.pc t).Owns cfg i → (s.pc u).Owns cfg i → t = u) ∧
    s.dequeuePos ≤ s.enqueuePos ∧ s.enqueuePos - s.dequeuePos ≤ cfg.slots ∧
    s.claims.length = s.enqueuePos ∧
    s.claims.length = s.pops + s.evictions + (s.enqueuePos - s.dequeuePos) := by
  have hp := Config.two_le_slots hcap
  have hinv := protocol_inv hcap hrun
  have hdel := run_delivered hcap hrun
  have hle : s.dequeuePos ≤ s.enqueuePos := hinv.head_le
  have hfull : s.enqueuePos ≤ s.dequeuePos + cfg.slots := hinv.tail_le
  have hlen : s.claims.length = s.enqueuePos := hinv.put_length
  have hcount : s.pops + s.evictions = s.dequeuePos := by
    rw [pops_add_evictions, ← length_map (f := Prod.fst), hdel.positions, length_range]
  refine ⟨hdel.positions, ?_, hdel.handed_once, ?_, ?_, ?_, hle, by omega, hlen, by omega⟩
  · intro pos v hmem
    exact ⟨hdel.handed_item pos v hmem, hdel.handed_popped pos v hmem⟩
  · intro t v hv
    have hmem := hdel.carried t v hv
    obtain ⟨⟨pos, w⟩, hpair, rfl⟩ := mem_map.mp hmem
    exact ⟨hmem, mem_of_getElem? (hdel.handed_item pos w hpair)⟩
  · intro t pos hrole
    have hr := hinv.roles t
    rw [show s.protocol.role t = .taking pos from hrole] at hr
    obtain ⟨hlt, -, -, hdata⟩ := hr
    refine ⟨by rw [cfg.and_mask]; exact hdata, ?_⟩
    have : pos < s.dequeuePos := hlt
    omega
  · rintro t u i ⟨pos, ht, hi⟩ ⟨pos', hu, hi'⟩
    refine TicketRing.owner_unique hp hinv ht hu ?_
    rw [← cfg.and_mask, ← cfg.and_mask, hi, hi']

end

def pushThenPop : List (Bool × Act Nat) :=
  (true, .push 7) :: List.replicate 7 (true, .go false) ++
    (false, .tryPop) :: List.replicate 6 (false, .go false)

theorem ring_exactly_once_pushThenPop :
    ∃ s : State Bool Nat, exec (step ⟨2, .dropNew⟩) State.init pushThenPop = some s ∧
      s.handed = [(0, 7)] ∧ s.claims = [7] ∧ (s.handed.map Prod.fst).Nodup ∧
      s.claims.length = s.pops + s.evictions + (s.enqueuePos - s.dequeuePos) := by
  have hall {s : State Bool Nat}
      (hrun : exec (step ⟨2, .dropNew⟩) State.init pushThenPop = some s) :=
    ring_exactly_once (by decide) hrun
  refine ⟨_, rfl, rfl, rfl, (hall rfl).2.2.1, (hall rfl).2.2.2.2.2.2.2.2.2⟩

end Muses.RingImpl
