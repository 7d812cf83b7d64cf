import Muses.Proxy.Frames
import Muses.Proxy.Scheduling

/-!
# Handles of suspended coroutines

The chain of frames of each client is where the proxy's record says, so every handle that the poller
or an event carries is that of a suspended frame.
-/

namespace Muses.Proxy

open Muses.Core Function Option
open Coro (Handle Machine Op Status Chain Stack Shift Allocates Rests start_stack dropTasks_erase)

/-! ## The coupling -/

def Frame.status (f : Frame) : Status :=
  match f.waiting with
  | some fd => .io fd
  | none => if f.pc = .finished then .done else .running

/-- The frames of the coroutine's calls, from the innermost to `r`. -/
structure Stands (m : Machine) (r : Handle) (f : Frame) (hs : List Handle) : Prop where
  chain : Chain m none f.status hs
  root : hs.getLast? = some r
  depth : hs.length = f.pc.depth + 1
  nodup : hs.Nodup
  created : hs.length ≤ m.created

/-- The chains of the clients are where their records say, do not overlap, and are what the poller
and the events know. -/
structure Coupled (σ : Sys) (stack : ConnId → List Handle) : Prop where
  stands : ∀ id f, σ.proxy.frames id = some f → Stands σ.machine (σ.root id) f (stack id)
  disjoint : ∀ i j f g, σ.proxy.frames i = some f → σ.proxy.frames j = some g → i ≠ j →
    ∀ h ∈ stack i, h ∉ stack j
  current : σ.machine.current = σ.proxy.active.bind fun id => (stack id).head?
  userdata : ∀ fd, σ.machine.userdata fd = (σ.proxy.interest fd).bind fun r => (stack r.2).head?
  pending : σ.pending =
    σ.proxy.pc.events.map fun e => (e.fd, e.userdata.bind fun id => (stack id).head?)
  bounded : σ.machine.Bounded

section Coupling

variable {cfg : Config} {alloc : Machine → Handle} {σ : Sys} {stack : ConnId → List Handle}
  {s' : State} {m m' : Machine} {id : ConnId} {f f' : Frame} {r : Handle} {hs hs' : List Handle}
  {io : Io}

theorem Stands.ne (h : Stands m r f hs) : hs ≠ [] :=
  List.ne_nil_of_length_eq_add_one h.depth

theorem Stands.congr (h : Stands m r f hs) (hkept : ∀ j ∈ hs, m'.frames j = m.frames j)
    (hcreated : m.created ≤ m'.created) : Stands m' r f hs where
  chain := h.chain.congr hkept
  root := h.root
  depth := h.depth
  nodup := h.nodup
  created := h.created.trans hcreated

theorem Frame.status_running (hwait : f.waiting = none) (hfin : f.pc ≠ .finished) :
    f.status = .running := by
  simp [Frame.status, hwait, hfin]

variable {fd : Fd} {evs : List Event} {a : Act}

theorem Frame.status_io (hwait : f.waiting = some fd) : f.status = .io fd := by
  simp [Frame.status, hwait]

theorem Frame.status_done (hwait : f.waiting = none) (hfin : f.pc = .finished) :
    f.status = .done := by
  simp [Frame.status, hwait, hfin]

theorem Coupled.runs (h : Coupled σ stack) (hactive : σ.proxy.active = some id)
    (hid : σ.proxy.frames id = some f) (hwait : f.waiting = none) (hfin : f.pc ≠ .finished) :
    Stack σ.machine (stack id) where
  chain := Frame.status_running hwait hfin ▸ (h.stands id f hid).chain
  current := by
    rw [h.current, hactive]
    rfl
  ne := (h.stands id f hid).ne
  nodup := (h.stands id f hid).nodup
  depth := (h.stands id f hid).created

theorem Coupled.shift (h : Coupled σ stack) (hid : σ.proxy.frames id = some f)
    (hshift : Shift σ.machine (stack id) m' hs')
    (hframes : s'.frames = update σ.proxy.frames id (some f'))
    (hstands : Stands m' (σ.root id) f' hs') {p' : List (Fd × Option Handle)}
    (hcurrent : m'.current = s'.active.bind fun j => (update stack id hs' j).head?)
    (hdata : ∀ fd, m'.userdata fd =
      (s'.interest fd).bind fun r => (update stack id hs' r.2).head?)
    (hpending : p' = s'.pc.events.map fun e =>
      (e.fd, e.userdata.bind fun j => (update stack id hs' j).head?)) :
    Coupled ⟨s', m', σ.root, p'⟩ (update stack id hs') := by
  have hother {j : ConnId} {g : Frame} (hj : j ≠ id) (hjf : s'.frames j = some g) :
      σ.proxy.frames j = some g := by
    rwa [hframes, update_of_ne hj] at hjf
  -- the frames of another chain are taken and lie outside this one
  have hkept {j : ConnId} {g : Frame} (hj : j ≠ id) (hjf : σ.proxy.frames j = some g) (x : Handle)
      (hx : x ∈ stack j) : m'.frames x = σ.machine.frames x :=
    hshift.kept x (h.disjoint j id g f hjf hid hj x hx) ((h.stands j g hjf).chain.taken hx)
  have hnew {j : ConnId} {g : Frame} (hj : j ≠ id) (hjf : σ.proxy.frames j = some g) (x : Handle)
      (hx : x ∈ hs') : x ∉ stack j := by
    intro hxj
    rcases hshift.own x hx with hold | hfree
    · exact h.disjoint id j f g hid hjf hj.symm x hold hxj
    · exact (h.stands j g hjf).chain.taken hxj hfree
  exact {
    stands := fun j g hj => by
      by_cases hji : j = id
      · subst hji
        have hj : s'.frames j = some g := hj
        rw [hframes, update_self, Option.some.injEq] at hj
        rw [update_self, ← hj]
        exact hstands
      · rw [update_of_ne hji]
        have hjf := hother hji hj
        exact (h.stands j g hjf).congr (hkept hji hjf) hshift.created
    disjoint := fun i j g g' hi hj hij x hx => by
      by_cases hii : i = id <;> by_cases hji : j = id
      · exact absurd (hii.trans hji.symm) hij
      · subst hii
        rw [update_self] at hx
        rw [update_of_ne hji]
        exact hnew hji (hother hji hj) x hx
      · subst hji
        rw [update_of_ne hii] at hx
        rw [update_self]
        exact fun hx' => hnew hii (hother hii hi) x hx' hx
      · rw [update_of_ne hii] at hx
        rw [update_of_ne hji]
        exact h.disjoint i j g g' (hother hii hi) (hother hji hj) hij x hx
    current := hcurrent
    userdata := hdata
    pending := hpending
    bounded := hshift.bounded h.bounded }

/-! ### The active coroutine -/

theorem script_runs (f f' : Frame) (io : Io) (halloc : Allocates alloc) (hm : Stack m hs)
    (hb : m.Bounded)
    (hlen : hs.length = f.pc.depth + 1)
    (hclimb : Op.climb f.pc.depth (f.pc.leave io ++ f.pc.enter io f'.pc) = some f'.pc.depth)
    (hroot : hs.getLast? = some r) :
    ∃ m' hs', exec (Op.step alloc) m (script f io f') = some m' ∧ Stands m' r f' hs' ∧
      Shift m hs m' hs' ∧
      m'.current = (if f'.status = .running then hs'.head? else none) ∧
      m'.userdata = match f'.waiting with
        | some fd => if io.addOk then update m.userdata fd hs'.head? else m.userdata
        | none => m.userdata := by
  obtain ⟨m₁, hs₁, hrun, hm₁, hlen₁, hshift, hdata⟩ := hm.climb halloc hb hlen hclimb
  have hroot₁ : hs₁.getLast? = some r := hshift.root.trans hroot
  unfold script
  rw [exec_append, hrun, bind_some]
  cases hwait : f'.waiting with
  | some fd =>
    obtain ⟨m', hawait, hchain, hcurrent, hshift', hdata'⟩ := hm₁.awaitIo fd io.addOk
    refine ⟨m', hs₁, ?_, ⟨?_, hroot₁, hlen₁, hm₁.nodup, hm₁.depth.trans hshift'.created⟩,
      hshift.trans hshift', ?_, ?_⟩
    · simp only [Frame.pause, hwait]
      rw [exec_cons_of_step [] (show Op.step alloc m₁ (.awaitIo fd io.addOk) = some m' from hawait)]
      rfl
    · rw [Frame.status_io hwait]
      exact hchain
    · rw [Frame.status_io hwait, if_neg nofun, hcurrent]
    · rw [hdata', hdata]
  | none =>
    by_cases hfin : f'.pc = .finished
    · obtain ⟨x, rfl⟩ : ∃ x, hs₁ = [x] := by
        rw [hfin] at hlen₁
        exact List.length_eq_one_iff.mp hlen₁
      obtain ⟨m', hfinish, hchain, hcurrent, hshift', hdata'⟩ := hm₁.finish
      refine ⟨m', [x], ?_, ⟨?_, hroot₁, hlen₁, hm₁.nodup, hm₁.depth.trans hshift'.created⟩,
        hshift.trans hshift', ?_, hdata'.trans hdata⟩
      · simp only [Frame.pause, hwait, hfin, if_true]
        rw [exec_cons_of_step [] (show Op.step alloc m₁ .finish = some m' from hfinish)]
        rfl
      · rw [Frame.status_done hwait hfin]
        exact hchain
      · rw [Frame.status_done hwait hfin, if_neg nofun, hcurrent]
    · refine ⟨m₁, hs₁, ?_, ⟨?_, hroot₁, hlen₁, hm₁.nodup, hm₁.depth⟩, hshift, ?_, hdata⟩
      · simp [Frame.pause, hwait, hfin]
      · rw [Frame.status_running hwait hfin]
        exact hm₁.chain
      · rw [Frame.status_running hwait hfin, if_pos rfl, hm₁.current]

theorem Coupled.others (h : Coupled σ stack) (hsched : Scheduled cfg σ.proxy)
    (hactive : σ.proxy.active = some id) (hs' : List Handle) :
    (∀ fd, σ.machine.userdata fd =
      (σ.proxy.interest fd).bind fun r => (update stack id hs' r.2).head?) ∧
    σ.pending = σ.proxy.pc.events.map fun e =>
      (e.fd, e.userdata.bind fun j => (update stack id hs' j).head?) := by
  have hne {fd : Fd} {m : EventMask} {j : ConnId} (hreg : σ.proxy.interest fd = some (m, j)) :
      j ≠ id := by
    rintro rfl
    obtain ⟨-, -, -, -, hnot⟩ := hsched.awaits_of_registered hreg
    exact hnot hactive
  refine ⟨fun fd => ?_, ?_⟩
  · rw [h.userdata]
    cases hreg : σ.proxy.interest fd with
    | none => rfl
    | some p => simp [hne hreg]
  · rw [h.pending]
    refine List.map_congr_left fun e he => ?_
    rcases hsched.events e he with ⟨-, hnone⟩ | ⟨m, j, hj, hreg⟩
    · simp [hnone]
    · simp [hj, hne hreg]

/-- **A step of the active coroutine** is defined for the frames, and keeps the coupling. -/
theorem Coupled.run (h : Coupled σ stack) (hsched : Scheduled cfg σ.proxy)
    (horderly : Orderly σ.proxy) (horderly' : Orderly s') (halloc : Allocates alloc)
    (hadd : io.addOk = true) (hactive : σ.proxy.active = some id)
    (hid : σ.proxy.frames id = some f) (hrun : σ.proxy.runFrame cfg id f io = some s') :
    ∃ m' stack', σ.run alloc io s' = some m' ∧
      Coupled { σ with proxy := s', machine := m' } stack' := by
  have hungry := horderly.hungry id f hid
  have hleads := runFrame_leads hungry hrun
  obtain ⟨f', hframes, hstops, -⟩ :=
    hsched.stops horderly.placed horderly'.placed hadd hactive hid hleads
  have hid' : s'.frames id = some f' := by rw [hframes, update_self]
  obtain ⟨g, hg, hwait, hfin⟩ := hsched.active id hactive
  obtain rfl : f = g := Option.some.inj (hid.symm.trans hg)
  have hstands := h.stands id f hid
  obtain ⟨m', hs', hexec, hstands', hshift, hcurrent, hdata⟩ :=
    script_runs f f' io halloc (h.runs hactive hid hwait hfin) h.bounded
      hstands.depth (script_climb hungry hrun hid') hstands.root
  obtain ⟨hothers, hpending⟩ := h.others hsched hactive hs'
  refine ⟨m', update stack id hs', ?_,
    h.shift hid hshift hframes hstands' ?_ (fun fd => ?_) ?_⟩
  · simp only [Sys.run, hactive, hid, hid', hexec]
  · rw [hcurrent]
    cases hstops with
    | goes hact hwait' hfin' =>
      rw [Frame.status_running hwait' hfin', hact]
      simp
    | ends hact hwait' hfin' =>
      rw [Frame.status_done hwait' hfin', hact]
      rfl
    | waits hact hwait' =>
      rw [Frame.status_io hwait', hact]
      rfl
  · rw [hdata]
    cases hstops with
    | goes _ hwait' _ hint | ends _ hwait' _ hint =>
      simp only [hwait', hint]
      exact hothers fd
    | @waits fd' mask _ hwait' _ _ hint =>
      simp only [hwait', hadd, hint, if_true]
      by_cases hfd : fd = fd'
      · simp [hfd]
      · simp only [ne_eq, hfd, not_false_eq_true, update_of_ne]
        exact hothers fd
  · rw [hpending, hleads.same.2]

/-! ### The loop -/

theorem Coupled.keep (h : Coupled σ stack) (s' : State) (hframes : s'.frames = σ.proxy.frames)
    (hactive : s'.active = σ.proxy.active) (hint : s'.interest = σ.proxy.interest)
    {p' : List (Fd × Option Handle)}
    (hpending : p' = s'.pc.events.map fun e =>
      (e.fd, e.userdata.bind fun id => (stack id).head?)) :
    Coupled { σ with proxy := s', pending := p' } stack where
  stands id f hid := h.stands id f (hframes ▸ hid)
  disjoint i j f g hi hj := h.disjoint i j f g (hframes ▸ hi) (hframes ▸ hj)
  current := by
    show σ.machine.current = s'.active.bind _
    rw [hactive]
    exact h.current
  userdata fd := by
    show σ.machine.userdata fd = (s'.interest fd).bind _
    rw [hint]
    exact h.userdata fd
  pending := hpending
  bounded := h.bounded

theorem Coupled.poll (h : Coupled σ stack) (evs : List (Fd × EventMask)) :
    Coupled { σ with
      proxy := σ.proxy.setLoop (.batch (evs.map σ.proxy.toEvent))
      pending := evs.map fun e => (e.1, σ.machine.userdata e.1) } stack := by
  refine h.keep (σ.proxy.setLoop (.batch (evs.map σ.proxy.toEvent))) rfl rfl rfl ?_
  show _ = (evs.map σ.proxy.toEvent).map _
  rw [List.map_map]
  refine List.map_congr_left fun e _ => ?_
  simp only [comp_apply, State.toEvent, h.userdata]
  cases σ.proxy.interest e.1 <;> rfl

theorem Coupled.tail (h : Coupled σ stack) {e : Event} {pc : Loop}
    (hpc : σ.proxy.pc = .batch (e :: evs)) (hevents : pc.events = evs) :
    Coupled { σ with proxy := σ.proxy.setLoop pc, pending := σ.pending.tail } stack := by
  refine h.keep (σ.proxy.setLoop pc) rfl rfl rfl ?_
  rw [h.pending, hpc]
  show _ = pc.events.map _
  rw [hevents]
  rfl

theorem Coupled.setLoop (h : Coupled σ stack) {pc : Loop}
    (hevents : pc.events = σ.proxy.pc.events) :
    Coupled { σ with proxy := σ.proxy.setLoop pc } stack := by
  refine h.keep (σ.proxy.setLoop pc) rfl rfl rfl ?_
  rw [h.pending]
  show _ = pc.events.map _
  rw [hevents]

theorem Coupled.resume (h : Coupled σ stack) (hsched : Scheduled cfg σ.proxy) {e : Event}
    (hactive : σ.proxy.active = none) (hpc : σ.proxy.pc = .batch (e :: evs))
    (hdata : e.userdata = some id) (hid : σ.proxy.frames id = some f) :
    ∃ x rest m', σ.pending = (e.fd, some x) :: rest ∧
      (σ.machine.del e.fd).resume x = some m' ∧
      Coupled ⟨{ σ.proxy with
        pc := .batch evs
        interest := update σ.proxy.interest e.fd none
        frames := update σ.proxy.frames id (some { f with waiting := none })
        active := some id }, m', σ.root, rest⟩ stack := by
  have hevents := hsched.events e (by rw [hpc]; exact List.mem_cons_self)
  obtain ⟨m, hreg⟩ : ∃ m, σ.proxy.interest e.fd = some (m, id) := by
    rcases hevents with ⟨-, hnone⟩ | ⟨m, j, hj, hreg⟩
    · rw [hdata] at hnone
      cases hnone
    · rw [hdata, Option.some.injEq] at hj
      exact ⟨m, hj ▸ hreg⟩
  obtain ⟨g, hg, hwait, hawaits, -⟩ := hsched.awaits_of_registered hreg
  obtain rfl : f = g := Option.some.inj (hid.symm.trans hg)
  have hfin : f.pc ≠ .finished := by
    intro hfin
    rw [hfin] at hawaits
    cases hawaits
  have hstands := h.stands id f hid
  obtain ⟨x, hs, hstack⟩ := List.exists_cons_of_ne_nil hstands.ne
  rw [hstack] at hstands
  have hchain : Chain (σ.machine.del e.fd) none (.io e.fd) (x :: hs) := by
    rw [← Frame.status_io hwait]
    exact hstands.chain.congr fun _ _ => rfl
  have hidle : (σ.machine.del e.fd).current = none := by
    show σ.machine.current = none
    rw [h.current, hactive]
    rfl
  obtain ⟨m', hresume, hm', hshift, hdata'⟩ := hchain.resume hstands.nodup hstands.created hidle
  have hpending := h.pending
  rw [hpc] at hpending
  refine ⟨x, evs.map fun e => (e.fd, e.userdata.bind fun id => (stack id).head?), m', ?_, hresume,
    ?_⟩
  · rw [hpending]
    simp [Loop.events, hdata, hstack]
  · have hself : update stack id (x :: hs) = stack :=
      update_eq_self_iff.mpr hstack.symm
    have hshift : Shift σ.machine (stack id) m' (x :: hs) := by
      rw [hstack]
      exact ⟨hshift.kept, hshift.gone, hshift.own, hshift.root, hshift.created, hshift.bounded⟩
    have hstatus : Frame.status { f with waiting := none } = .running :=
      Frame.status_running rfl hfin
    have hstands' : Stands m' (σ.root id) { f with waiting := none } (x :: hs) :=
      ⟨by rw [hstatus]; exact hm'.chain, hstands.root, hstands.depth, hm'.nodup, hm'.depth⟩
    rw [← hself]
    refine h.shift hid hshift ?_ hstands' ?_ (fun fd => ?_) rfl
    · rfl
    · rw [hm'.current]
      simp
    · rw [hdata', hself]
      show update σ.machine.userdata e.fd none fd = _
      by_cases hfd : fd = e.fd
      · simp [hfd]
      · simp only [ne_eq, hfd, not_false_eq_true, update_of_ne]
        exact h.userdata fd

theorem Coupled.spawn (h : Coupled σ stack) (hsched : Scheduled cfg σ.proxy)
    (hplaced : Placed σ.proxy.view) (halloc : Allocates alloc) (fd : Fd) {accepted : Nat}
    (hactive : σ.proxy.active = none) (hpc : σ.proxy.pc = .accepting accepted evs) :
    ∃ m' stack', σ.start alloc = some m' ∧
      Coupled ⟨σ.proxy.spawn fd (accepted + 1) evs, m',
        update σ.root σ.proxy.opened (alloc σ.machine), σ.pending⟩ stack' := by
  have hfree {m : Machine} (hm : m.Bounded) : m.frames (alloc m) = none := by
    obtain ⟨n, hn⟩ := hm
    exact halloc m ⟨n, hn n (le_refl n)⟩
  have hidle : σ.machine.current = none := by
    rw [h.current, hactive]
    rfl
  obtain ⟨m₁, hstart, hm₁, hkept₁, hbounded, hcreated, hdata₁⟩ :=
    start_stack (hfree h.bounded) hidle
  obtain ⟨m', hcall, hm', hshift, hdata⟩ := hm₁.call (hfree (hbounded h.bounded))
  have hold {j : ConnId} {g : Frame} (hj : σ.proxy.frames j = some g) : j ≠ σ.proxy.opened :=
    Nat.ne_of_lt (hplaced.frame_lt hj)
  have hframe {j : ConnId} {g : Frame} (hne : j ≠ σ.proxy.opened)
      (hj : (σ.proxy.spawn fd (accepted + 1) evs).frames j = some g) :
      σ.proxy.frames j = some g := by
    simpa [State.spawn, hne] using hj
  have htaken {j : ConnId} {g : Frame} (hj : σ.proxy.frames j = some g) {x : Handle}
      (hx : x ∈ stack j) : σ.machine.frames x ≠ none := (h.stands j g hj).chain.taken hx
  -- both frames are new, so the frames of the other clients are not touched
  have hnew (x : Handle) (hx : x ∈ [alloc m₁, alloc σ.machine]) : σ.machine.frames x = none := by
    rcases hshift.own x hx with hx | hx
    · rw [List.mem_singleton.mp hx]
      exact hfree h.bounded
    · by_contra hne
      exact hne ((hkept₁ x hne).symm.trans hx)
  have hkept {x : Handle} (hx : σ.machine.frames x ≠ none) :
      m'.frames x = σ.machine.frames x := by
    have hout : x ∉ [alloc σ.machine] := fun hmem => hx (hnew x (List.mem_cons_of_mem _ hmem))
    rw [hshift.kept x hout (by rwa [hkept₁ x hx]), hkept₁ x hx]
  refine ⟨m', update stack σ.proxy.opened [alloc m₁, alloc σ.machine], ?_, ?_⟩
  · rw [Sys.start, hstart]
    exact hcall
  exact {
    stands := fun j g hj => by
      by_cases hnew : j = σ.proxy.opened
      · subst hnew
        have hj : (σ.proxy.spawn fd (accepted + 1) evs).frames σ.proxy.opened = some g := hj
        simp only [State.spawn, update_self, Option.some.injEq] at hj
        simp only [update_self, ← hj]
        exact ⟨hm'.chain, rfl, rfl, hm'.nodup, hm'.depth⟩
      · have hj := hframe hnew hj
        simp only [ne_eq, hnew, not_false_eq_true, update_of_ne]
        exact (h.stands j g hj).congr (fun x hx => hkept (htaken hj hx))
          (hcreated.trans hshift.created)
    disjoint := fun i j g g' hi hj hij x hx => by
      by_cases hi' : i = σ.proxy.opened <;> by_cases hj' : j = σ.proxy.opened
      · exact absurd (hi'.trans hj'.symm) hij
      · subst hi'
        rw [update_self] at hx
        rw [update_of_ne hj']
        exact fun hxj => htaken (hframe hj' hj) hxj (hnew x hx)
      · subst hj'
        rw [update_of_ne hi'] at hx
        rw [update_self]
        exact fun hxj => htaken (hframe hi' hi) hx (hnew x hxj)
      · rw [update_of_ne hi'] at hx
        rw [update_of_ne hj']
        exact h.disjoint i j g g' (hframe hi' hi) (hframe hj' hj) hij x hx
    current := by
      show m'.current = (some σ.proxy.opened).bind _
      rw [hm'.current]
      simp
    userdata := fun fd' => by
      show m'.userdata fd' = (σ.proxy.interest fd').bind _
      rw [hdata, hdata₁, h.userdata]
      cases hreg : σ.proxy.interest fd' with
      | none => rfl
      | some p =>
        obtain ⟨g, hg, -⟩ := hsched.registered fd' p.1 p.2 hreg
        simp [hold hg]
    pending := by
      show σ.pending = evs.map _
      rw [h.pending, hpc]
      refine List.map_congr_left fun e he => ?_
      rcases hsched.events e (by rw [hpc]; exact he) with ⟨-, hnone⟩ | ⟨m, j, hj, hreg⟩
      · simp [hnone]
      · obtain ⟨g, hg, -⟩ := hsched.registered e.fd m j hreg
        simp [hj, hold hg]
    bounded := hshift.bounded (hbounded h.bounded) }

/-! ### Tasks that are destroyed -/

theorem Coupled.rests (h : Coupled σ stack) (hid : σ.proxy.frames id = some f)
    (hst : f.status ≠ .running) : Rests σ.machine (σ.root id) (stack id) where
  chain := by
    refine ⟨f.status, (h.stands id f hid).chain, hst, fun c => ?_⟩
    unfold Frame.status
    split
    · nofun
    · split <;> nofun
  root := (h.stands id f hid).root
  nodup := (h.stands id f hid).nodup
  depth := (h.stands id f hid).created

theorem Coupled.dropTasks (h : Coupled σ stack) (ids : List ConnId) (hnodup : ids.Nodup)
    (hrest : ∀ id ∈ ids, ∃ f, σ.proxy.frames id = some f ∧ f.status ≠ .running) :
    σ.dropTasks ids = some (σ.machine.erase (ids.flatMap stack)) := by
  refine dropTasks_erase hnodup (fun id hid => ?_) fun i hi j hj hij => ?_
  · obtain ⟨f, hf, hst⟩ := hrest id hid
    exact h.rests hf hst
  · obtain ⟨f, hf, -⟩ := hrest i hi
    obtain ⟨g, hg, -⟩ := hrest j hj
    exact h.disjoint i j f g hf hg hij

theorem Coupled.erase (h : Coupled σ stack) {ids : List ConnId}
    (hrest : ∀ id ∈ ids, ∃ f, σ.proxy.frames id = some f)
    (hframes : ∀ id, s'.frames id = if id ∈ ids then none else σ.proxy.frames id)
    (hactive : s'.active = σ.proxy.active) (hint : s'.interest = σ.proxy.interest)
    (hevents : s'.pc.events = σ.proxy.pc.events) :
    Coupled { σ with proxy := s', machine := σ.machine.erase (ids.flatMap stack) } stack := by
  have hkept {id : ConnId} {f : Frame} (hid : s'.frames id = some f) :
      id ∉ ids ∧ σ.proxy.frames id = some f := by
    rw [hframes] at hid
    exact ite_none_left_eq_some.mp hid
  exact {
    stands := fun id f hid => by
      obtain ⟨hnot, hid⟩ := hkept hid
      refine (h.stands id f hid).congr (fun x hx => if_neg fun hmem => ?_) (le_refl _)
      obtain ⟨j, hj, hxj⟩ := List.mem_flatMap.mp hmem
      obtain ⟨g, hg⟩ := hrest j hj
      exact h.disjoint id j f g hid hg (fun heq => hnot (heq ▸ hj)) x hx hxj
    disjoint := fun i j f g hi hj => h.disjoint i j f g (hkept hi).2 (hkept hj).2
    current := by
      show σ.machine.current = s'.active.bind _
      rw [hactive]
      exact h.current
    userdata := fun fd => by
      show σ.machine.userdata fd = (s'.interest fd).bind _
      rw [hint]
      exact h.userdata fd
    pending := by
      show σ.pending = s'.pc.events.map _
      rw [hevents]
      exact h.pending
    bounded := by
      obtain ⟨n, hn⟩ := h.bounded
      refine ⟨n, fun x hx => ?_⟩
      show (if x ∈ ids.flatMap stack then none else σ.machine.frames x) = none
      rw [hn x hx, ite_self] }

theorem Stands.isDone (h : Stands m r f hs) : m.isDone r = true ↔ f.status = .done := by
  obtain ⟨xs, rfl⟩ := List.getLast?_eq_some_iff.mp h.root
  obtain ⟨-, hr⟩ := Coro.chain_concat.mp h.chain
  have hdone : m.isDone r = true ↔ (xs.getLast?.map Status.awaiting).getD f.status = .done := by
    simp only [Machine.isDone, hr, decide_eq_true_eq]
  rw [hdone]
  cases hlast : xs.getLast? with
  | none => rfl
  | some c =>
    -- a coroutine that awaits a helper has not ended, nor has its client's record
    refine ⟨nofun, fun hst => ?_⟩
    have hfin : f.pc = .finished := by
      unfold Frame.status at hst
      split at hst
      · cases hst
      · split at hst
        · assumption
        · cases hst
    have hlen := h.depth
    rw [hfin, List.length_append] at hlen
    obtain rfl : xs = [] := List.length_eq_zero_iff.mp (by simpa [Pc.depth] using hlen)
    cases hlast

/-! ### Every step -/

theorem Scheduled.rests_status (h : Scheduled cfg σ.proxy) (hactive : σ.proxy.active = none)
    (hid : σ.proxy.frames id = some f) : f.status ≠ .running := by
  cases h.parked id f hid (by rw [hactive]; nofun) with
  | finished hpc hwait =>
    rw [Frame.status_done hwait hpc]
    nofun
  | waiting hwait =>
    rw [Frame.status_io hwait]
    nofun

theorem Coupled.isDone (h : Coupled σ stack) (hsched : Scheduled cfg σ.proxy)
    (hactive : σ.proxy.active = none) (hid : σ.proxy.frames id = some f) :
    σ.machine.isDone (σ.root id) = true ↔ f.pc = .finished := by
  rw [(h.stands id f hid).isDone]
  cases hsched.parked id f hid (by rw [hactive]; nofun) with
  | finished hpc hwait => simp [Frame.status_done hwait hpc, hpc]
  | waiting hwait hawaits =>
    refine ⟨fun hst => ?_, fun hpc => ?_⟩
    · rw [Frame.status_io hwait] at hst
      cases hst
    · rw [hpc] at hawaits
      cases hawaits

theorem Coupled.spawned (h : Coupled σ stack) (hsched : Scheduled cfg σ.proxy)
    (horderly : Orderly σ.proxy) (hactive : σ.proxy.active = none) {accepted : Nat}
    (hpc : σ.proxy.pc = .spawning id accepted evs) (hid : σ.proxy.frames id = some f) :
    ∃ m', σ.spawned = some m' ∧
      (f.pc = .finished → m' = σ.machine.erase ([id].flatMap stack)) ∧
      (f.pc ≠ .finished → m' = σ.machine) := by
  have hdone := h.isDone hsched hactive hid
  simp only [Sys.spawned, hpc]
  by_cases hfin : f.pc = .finished
  · have hdrop := h.dropTasks [id] (List.nodup_singleton id) fun j hj => by
      rw [List.mem_singleton.mp hj]
      exact ⟨f, hid, hsched.rests_status hactive hid⟩
    rw [if_pos (hdone.mpr hfin)]
    refine ⟨_, ?_, fun _ => rfl, fun hne => absurd hfin hne⟩
    simpa [Sys.dropTasks] using hdrop
  · have hvacant := horderly.filed.vacant horderly.placed hid (by rw [hpc]; rfl)
    rw [if_neg fun hd => hfin (hdone.mp hd), hid, bind_some, hvacant]
    exact ⟨_, rfl, fun heq => absurd heq hfin, fun _ => rfl⟩

theorem Coupled.reap (h : Coupled σ stack) (hsched : Scheduled cfg σ.proxy)
    (hplaced : Placed σ.proxy.view) (hactive : σ.proxy.active = none)
    (hpc : σ.proxy.pc = .batch []) :
    ∃ m', σ.dropTasks ((List.range σ.proxy.opened).filter fun id =>
        σ.live id && σ.machine.isDone (σ.root id)) = some m' ∧
      Coupled { σ with proxy := σ.proxy.reapFinishedTasks.setLoop .wait, machine := m' } stack := by
  have hmem (j : ConnId) : j ∈ (List.range σ.proxy.opened).filter (fun id =>
      σ.live id && σ.machine.isDone (σ.root id)) ↔
      ∃ f, σ.proxy.frames j = some f ∧ σ.proxy.liveTasks f.client = some j ∧ f.pc = .finished := by
    rw [List.mem_filter, List.mem_range, Bool.and_eq_true]
    constructor
    · rintro ⟨-, hlive, hdone⟩
      unfold Sys.live at hlive
      cases hj : σ.proxy.frames j with
      | none => simp [hj] at hlive
      | some f =>
        exact ⟨f, rfl, by simpa [hj] using hlive, (h.isDone hsched hactive hj).mp hdone⟩
    · rintro ⟨f, hj, hlive, hfin⟩
      exact ⟨hplaced.frame_lt hj, by simp [Sys.live, hj, hlive],
        (h.isDone hsched hactive hj).mpr hfin⟩
  refine ⟨_, h.dropTasks _ (List.nodup_range.filter _) fun j hj => ?_,
    h.erase (fun j hj => ?_) (fun j => ?_) rfl rfl (by rw [hpc]; rfl)⟩
  · obtain ⟨f, hf, -⟩ := (hmem j).mp hj
    exact ⟨f, hf, hsched.rests_status hactive hf⟩
  · obtain ⟨f, hf, -⟩ := (hmem j).mp hj
    exact ⟨f, hf⟩
  · show (σ.proxy.frames j).filter _ = _
    cases hj : σ.proxy.frames j with
    | none => simp
    | some f =>
      have hiff := hmem j
      simp only [hj, Option.some.injEq, exists_eq_left'] at hiff
      simp only [hiff, Option.filter, State.isDone, hj]
      by_cases hlive : σ.proxy.liveTasks f.client = some j <;> by_cases hfin : f.pc = .finished <;>
        simp [hlive, hfin]

theorem Coupled.stop (h : Coupled σ stack) (hsched : Scheduled cfg σ.proxy)
    (hactive : σ.proxy.active = none) :
    ∃ m', σ.dropTasks ((List.range σ.proxy.opened).filter fun id => σ.live id) = some m' := by
  refine ⟨_, h.dropTasks _ (List.nodup_range.filter _) fun j hj => ?_⟩
  have hlive := (List.mem_filter.mp hj).2
  unfold Sys.live at hlive
  cases hj : σ.proxy.frames j with
  | none => simp [hj] at hlive
  | some f => exact ⟨f, rfl, hsched.rests_status hactive hj⟩

/-- The two machines are at the same point: the loop runs and all is coupled, or `stop` has
ended. -/
structure Joint (cfg : Config) (σ : Sys) (s : State) : Prop where
  proxy : σ.proxy = s
  orderly : Orderly s
  running : s.pc ≠ .stopped → Scheduled cfg s ∧ ∃ stack, Coupled σ stack
  stopped : s.pc = .stopped → s.active = none

theorem Joint.init : Joint cfg .init .init where
  proxy := rfl
  orderly := .init
  running _ := ⟨.init, fun _ => [], {
    stands := fun _ _ h => by cases h
    disjoint := fun _ _ _ _ h => by cases h
    current := rfl
    userdata := fun _ => rfl
    pending := rfl
    bounded := ⟨0, fun _ _ => rfl⟩ }⟩
  stopped h := by cases h

theorem Sys.step_plain (ha : a.outside = true ∨ a.idles = true)
    (hstep : Proxy.step cfg σ.proxy a = some s') :
    σ.step cfg alloc a = some { σ with proxy := s' } := by
  simp only [Sys.step, hstep, bind_some]
  cases a with
  | tick | connect | arrive | hangup | stop | pollFailed | acceptCap | leave => rfl
  | accept r =>
    cases r with
    | conn => rcases ha with ha | ha <;> cases ha
    | eagain | eintr | error => rfl
  | run | poll | acceptClients | spawned | resume | skip | reap | finishStop =>
    rcases ha with ha | ha <;> cases ha

theorem step_stopped {s : State} (hpc : s.pc = .stopped) (hactive : s.active = none)
    (hstep : step cfg s a = some s') : a.outside = true ∧ Calm s s' := by
  rcases step_cases hstep with houtside | ⟨io, id, f, -, hact, -⟩ | ⟨-, hmove⟩
  · exact houtside
  · rw [hactive] at hact
    cases hact
  · cases hmove with
    | stay _ _ _ _ hstop => exact absurd hpc hstop
    | poll h | drop _ h | resume h | spawn h | discard h | adopt h | reap h | finishStop h =>
      rw [hpc] at h
      cases h

/-- **The loop's step is defined for the frames**, and keeps the coupling. -/
theorem Coupled.loop (h : Coupled σ stack) (hsched : Scheduled cfg σ.proxy)
    (horderly : Orderly σ.proxy) (halloc : Allocates alloc) (hactive : σ.proxy.active = none)
    (hmove : LoopMove cfg σ.proxy a s') (hstep : Proxy.step cfg σ.proxy a = some s') :
    ∃ σ', σ.step cfg alloc a = some σ' ∧ σ'.proxy = s' ∧
      (s'.pc ≠ .stopped → ∃ stack', Coupled σ' stack') := by
  cases hmove with
  | @poll evs =>
    refine ⟨_, ?_, rfl, fun _ => ⟨stack, h.poll evs⟩⟩
    simp only [Sys.step, hstep, bind_some]
  | @drop a e evs pc hact hpc hevents =>
    refine ⟨_, ?_, rfl, fun _ => ⟨stack, h.tail hpc hevents⟩⟩
    rcases hact with rfl | rfl <;> simp only [Sys.step, hstep, bind_some]
  | @stay a pc hact hevents =>
    exact ⟨_, Sys.step_plain (.inr hact) hstep, rfl, fun _ => ⟨stack, h.setLoop hevents⟩⟩
  | @resume e evs id f hpc hdata hid =>
    obtain ⟨x, rest, m', hpending, hresume, hcoupled⟩ := h.resume hsched hactive hpc hdata hid
    refine ⟨_, ?_, rfl, fun _ => ⟨stack, hcoupled⟩⟩
    simp only [Sys.step, hstep, bind_some, hpending, hresume, map_some]
  | @spawn fd accepted evs hpc =>
    obtain ⟨m', stack', hstart, hcoupled⟩ :=
      h.spawn hsched horderly.placed halloc fd hactive hpc
    refine ⟨_, ?_, rfl, fun _ => ⟨stack', hcoupled⟩⟩
    simp only [Sys.step, hstep, bind_some, hstart, map_some]
  | @discard id f accepted evs hpc hid hfin =>
    obtain ⟨m', hspawned, hm', -⟩ := h.spawned hsched horderly hactive hpc hid
    have hwait : f.waiting = none := by
      cases hsched.parked id f hid (by rw [hactive]; nofun) with
      | finished _ hwait => exact hwait
      | waiting _ hawaits =>
        rw [hfin] at hawaits
        cases hawaits
    have hcoupled : Coupled { σ with
        proxy := ((σ.proxy.close f.client).destroyTask (some id)).setLoop (.accepting accepted evs)
        machine := m' } stack := by
      rw [hm' hfin]
      refine h.erase (fun j hj => ?_) (fun j => ?_) rfl ?_ (by rw [hpc]; rfl)
      · exact ⟨f, (List.mem_singleton.mp hj) ▸ hid⟩
      · by_cases hji : j = id <;> simp [State.setLoop, State.destroyTask, State.close, hji]
      · exact update_eq_self_iff.mpr
          (hsched.unregistered horderly.placed hid hwait (.inl rfl)).symm
    refine ⟨_, ?_, rfl, fun _ => ⟨stack, hcoupled⟩⟩
    simp only [Sys.step, hstep, bind_some, hspawned, map_some]
  | @adopt id f accepted evs hpc hid hfin =>
    obtain ⟨m', hspawned, -, hm'⟩ := h.spawned hsched horderly hactive hpc hid
    have hvacant := horderly.filed.vacant horderly.placed hid (by rw [hpc]; rfl)
    rw [destroyTask_vacant hvacant] at hstep ⊢
    have hcoupled : Coupled { σ with
        proxy := { σ.proxy with
          liveTasks := update σ.proxy.liveTasks f.client (some id)
          pc := .accepting accepted evs }
        machine := m' } stack := by
      rw [hm' hfin]
      exact h.keep { σ.proxy with
        liveTasks := update σ.proxy.liveTasks f.client (some id)
        pc := .accepting accepted evs } rfl rfl rfl (by rw [h.pending, hpc]; rfl)
    refine ⟨_, ?_, rfl, fun _ => ⟨stack, hcoupled⟩⟩
    simp only [Sys.step, hstep, bind_some, hspawned, map_some]
  | reap hpc =>
    obtain ⟨m', hdrop, hcoupled⟩ := h.reap hsched horderly.placed hactive hpc
    refine ⟨_, ?_, rfl, fun _ => ⟨stack, hcoupled⟩⟩
    simp only [Sys.step, hstep, bind_some, hdrop, map_some]
  | finishStop =>
    obtain ⟨m', hdrop⟩ := h.stop hsched hactive
    refine ⟨{ σ with proxy := σ.proxy.finishStop cfg, machine := m' }, ?_, rfl,
      fun hstop => absurd rfl hstop⟩
    simp only [Sys.step, hstep, bind_some, hdrop, map_some]

theorem Joint.step {s : State} (h : Joint cfg σ s) (halloc : Allocates alloc)
    (hadd : AddsSucceed s a) (hstep : Proxy.step cfg s a = some s') :
    ∃ σ', σ.step cfg alloc a = some σ' ∧ Joint cfg σ' s' := by
  obtain rfl := h.proxy
  have horderly := h.orderly.step hstep
  by_cases hpc : σ.proxy.pc = .stopped
  · have hactive := h.stopped hpc
    obtain ⟨houtside, hcalm⟩ := step_stopped hpc hactive hstep
    refine ⟨_, Sys.step_plain (.inl houtside) hstep, rfl, horderly, fun hne => ?_, fun _ => ?_⟩
    · exact absurd (hcalm.pc.trans hpc) hne
    · exact hcalm.active.trans hactive
  · obtain ⟨hsched, stack, hcoupled⟩ := h.running hpc
    -- what is left to show: the step is defined, and the chains are coupled while the loop runs
    have hjoint {σ' : Sys} (hproxy : σ'.proxy = s')
        (hrunning : s'.pc ≠ .stopped → ∃ stack', Coupled σ' stack')
        (hstopped : s'.pc = .stopped → s'.active = none) : Joint cfg σ' s' :=
      ⟨hproxy, horderly, fun hne => ⟨hsched.step h.orderly hadd hstep hne, hrunning hne⟩, hstopped⟩
    rcases step_cases hstep with
      ⟨houtside, hcalm⟩ | ⟨io, id, f, rfl, hactive, hid, hrun⟩ | ⟨hactive, hmove⟩
    · refine ⟨_, Sys.step_plain (.inl houtside) hstep,
        hjoint rfl (fun _ => ⟨stack, ?_⟩) fun hs => ?_⟩
      · exact hcoupled.keep s' hcalm.frames hcalm.active hcalm.interest
          (by rw [hcoupled.pending, hcalm.pc])
      · exact absurd (hcalm.pc ▸ hs) hpc
    · obtain ⟨m', stack', hmachine, hcoupled'⟩ :=
        hcoupled.run hsched h.orderly horderly halloc hadd hactive hid hrun
      refine ⟨_, ?_, hjoint rfl (fun _ => ⟨stack', hcoupled'⟩) fun hs => ?_⟩
      · simp only [Sys.step, hstep, bind_some, hmachine, map_some]
      · exact absurd ((runFrame_leads (h.orderly.hungry id f hid) hrun).same.2 ▸ hs) hpc
    · obtain ⟨σ', hσ', hproxy, hrunning⟩ :=
        hcoupled.loop hsched h.orderly halloc hactive hmove hstep
      refine ⟨σ', hσ', hjoint hproxy hrunning fun hs => ?_⟩
      cases hmove with
      | finishStop => exact hactive
      | poll | resume | spawn | discard | adopt | reap => cases hs
      | drop _ _ _ _ hgo | stay _ _ _ _ _ hgo => exact absurd hs hgo

/-! ## The property -/

/-- Every registration and every event leads to a suspended coroutine, every task that has not ended
is registered once, and the next event can be processed. -/
structure Attended (cfg : Config) (alloc : Machine → Handle) (σ : Sys) : Prop where
  registered : ∀ fd h, σ.machine.userdata fd = some h →
    fd ≠ cfg.listenFd ∧ σ.machine.SuspendedAt h fd
  pending : ∀ e ∈ σ.pending, e = (cfg.listenFd, none) ∨
    ∃ h, e.2 = some h ∧ σ.machine.userdata e.1 = some h ∧ σ.machine.SuspendedAt h e.1
  once : ∀ id f, σ.proxy.frames id = some f → σ.machine.isDone (σ.root id) = false →
    σ.proxy.active ≠ some id →
      ∃! fd, ∃ h, σ.machine.userdata fd = some h ∧ σ.machine.InChain (σ.root id) h
  resumes : ∀ fd h rest, σ.proxy.active = none → σ.pending = (fd, some h) :: rest →
    (∃ m, (σ.machine.del fd).resume h = some m) ∧
      ∀ evs, σ.proxy.pc = .batch evs → (σ.step cfg alloc .resume).isSome

theorem Coupled.suspended (h : Coupled σ stack) (hsched : Scheduled cfg σ.proxy) {m : EventMask}
    (hreg : σ.proxy.interest fd = some (m, id)) :
    ∃ x hs f, stack id = x :: hs ∧ σ.proxy.frames id = some f ∧ f.waiting = some fd ∧
      σ.machine.userdata fd = some x ∧ σ.machine.SuspendedAt x fd := by
  obtain ⟨f, hid, hwait, -, -⟩ := hsched.awaits_of_registered hreg
  have hstands := h.stands id f hid
  obtain ⟨x, hs, hstack⟩ := List.exists_cons_of_ne_nil hstands.ne
  have hchain := hstands.chain
  rw [hstack, Frame.status_io hwait] at hchain
  refine ⟨x, hs, f, hstack, hid, hwait, ?_, ⟨_, hchain.1⟩⟩
  rw [h.userdata, hreg, bind_some, hstack]
  rfl

theorem Coupled.registered (h : Coupled σ stack) (hsched : Scheduled cfg σ.proxy)
    (hplaced : Placed σ.proxy.view) {x : Handle} (hx : σ.machine.userdata fd = some x) :
    fd ≠ cfg.listenFd ∧ σ.machine.SuspendedAt x fd := by
  have hsome := hx
  rw [h.userdata] at hsome
  obtain ⟨⟨m, id⟩, hreg, -⟩ := bind_eq_some_iff.mp hsome
  obtain ⟨y, hs, f, -, -, -, hy, hsusp⟩ := h.suspended hsched hreg
  obtain rfl : y = x := Option.some.inj (hy.symm.trans hx)
  refine ⟨?_, hsusp⟩
  rintro rfl
  -- the listening descriptor belongs to no connection
  obtain ⟨g, hg, -, hawaits, -⟩ := hsched.awaits_of_registered hreg
  have hopen : (σ.proxy.fds cfg.listenFd).isSome := hplaced.open_of_awaits (tasks_view hg) hawaits
  rw [hsched.listen] at hopen
  cases hopen

theorem Coupled.once (h : Coupled σ stack) (hsched : Scheduled cfg σ.proxy)
    (hplaced : Placed σ.proxy.view) (hid : σ.proxy.frames id = some f)
    (hdone : σ.machine.isDone (σ.root id) = false) (hactive : σ.proxy.active ≠ some id) :
    ∃! fd, ∃ x, σ.machine.userdata fd = some x ∧ σ.machine.InChain (σ.root id) x := by
  have hstands := h.stands id f hid
  cases hsched.parked id f hid hactive with
  | finished hpc hwait =>
    rw [hstands.isDone.mpr (Frame.status_done hwait hpc)] at hdone
    cases hdone
  | @waiting fd m hwait _ hreg =>
    obtain ⟨x, hs, f', hstack, hid', -, hx, hsusp⟩ := h.suspended hsched hreg
    rw [hstack] at hstands
    have hchain := hstands.chain
    rw [Frame.status_io hwait] at hchain
    refine ⟨fd, ⟨x, hx, hchain.inChain hstands.root⟩, ?_⟩
    rintro fd' ⟨y, hy, hin⟩
    have hsusp' := (h.registered hsched hplaced hy).2
    have hmem := hchain.mem_of_inChain nofun hstands.root hin
    obtain rfl := hchain.eq_of_suspendedAt hmem hsusp'
    exact hsusp'.inj hsusp

theorem Coupled.event (h : Coupled σ stack) (hsched : Scheduled cfg σ.proxy)
    {p : Fd × Option Handle} (hp : p ∈ σ.pending) :
    p = (cfg.listenFd, none) ∨
      ∃ x, p.2 = some x ∧ σ.machine.userdata p.1 = some x ∧ σ.machine.SuspendedAt x p.1 := by
  rw [h.pending] at hp
  obtain ⟨e, he, rfl⟩ := List.mem_map.mp hp
  rcases hsched.events e he with ⟨hfd, hnone⟩ | ⟨m, id, hdata, hreg⟩
  · left
    rw [hfd, hnone]
    rfl
  · right
    obtain ⟨x, hs, f, hstack, -, -, hx, hsusp⟩ := h.suspended hsched hreg
    exact ⟨x, by simp [hdata, hstack], hx, hsusp⟩

theorem Coupled.resume_enabled (h : Coupled σ stack) (hsched : Scheduled cfg σ.proxy)
    (hactive : σ.proxy.active = none) (hpc : σ.proxy.pc = .batch evs) {x : Handle}
    {rest : List (Fd × Option Handle)} (hpending : σ.pending = (fd, some x) :: rest) :
    ∃ s', Proxy.step cfg σ.proxy .resume = some s' := by
  have hevents := h.pending
  rw [hpending, hpc] at hevents
  cases evs with
  | nil => cases hevents
  | cons e evs =>
    obtain ⟨hhead, -⟩ := List.cons.inj hevents
    have hsome : e.userdata.bind (fun id => (stack id).head?) = some x := (Prod.mk.inj hhead).2.symm
    obtain ⟨id, hdata, -⟩ := bind_eq_some_iff.mp hsome
    obtain ⟨m, hreg⟩ : ∃ m, σ.proxy.interest e.fd = some (m, id) := by
      have hmem : e ∈ σ.proxy.pc.events := by
        rw [hpc]
        exact List.mem_cons_self
      rcases hsched.events e hmem with ⟨-, hnone⟩ | ⟨m, j, hj, hreg⟩
      · rw [hdata] at hnone
        cases hnone
      · rw [hdata, Option.some.injEq] at hj
        exact ⟨m, hj ▸ hreg⟩
    obtain ⟨f, hid, hwait, -, -⟩ := hsched.awaits_of_registered hreg
    simp only [Proxy.step, hactive, if_true, hpc, loopStep, hdata, State.resumeHandle,
      State.setLoop, hid, hwait, isSome_some]
    exact ⟨_, rfl⟩

/-- **Every event finds its coroutine suspended.** In every run of the proxy in which the poller
accepts what it is given, the steps of the coroutines are defined: nothing is resumed or destroyed
that must not be. While the loop runs, every registered descriptor and every event that is still
to be processed carries the handle of a frame that is suspended in an `IoAwaiter` for that
descriptor, and every task that has not ended and does not run has one registration in its await
chain. -/
theorem coroutines_scheduled {acts : List Act} {s : State} (halloc : Allocates alloc)
    (hmeets : Meets (step cfg) AddsSucceed .init acts)
    (hrun : exec (step cfg) .init acts = some s) :
    ∃ σ, exec (Sys.step cfg alloc) .init acts = some σ ∧ σ.proxy = s ∧
      (s.pc ≠ .stopped → Attended cfg alloc σ) := by
  have hsim (σ : Sys) (s : State) (a : Act) (s' : State) (h : Joint cfg σ s)
      (hadd : AddsSucceed s a) (hstep : step cfg s a = some s') :
      ∃ σ', Sys.step cfg alloc σ a = some σ' ∧ Joint cfg σ' s' := h.step halloc hadd hstep
  obtain ⟨σ, hexec, hjoint⟩ := exec_simulates hsim Joint.init hmeets hrun
  obtain rfl := hjoint.proxy
  refine ⟨σ, hexec, rfl, fun hpc => ?_⟩
  obtain ⟨hsched, stack, hcoupled⟩ := hjoint.running hpc
  have hplaced := hjoint.orderly.placed
  exact {
    registered := fun fd x hx => hcoupled.registered hsched hplaced hx
    pending := fun p hp => hcoupled.event hsched hp
    once := fun id f hid hdone hactive => hcoupled.once hsched hplaced hid hdone hactive
    resumes := fun fd x rest hactive hpending => by
      refine ⟨?_, fun evs hevs => ?_⟩
      · obtain hlisten | ⟨y, hy, -, k, hk⟩ :=
          hcoupled.event hsched (hpending ▸ List.mem_cons_self : (fd, some x) ∈ σ.pending)
        · cases hlisten
        · obtain rfl := Option.some.inj hy
          have hidle : σ.machine.current = none := by
            rw [hcoupled.current, hactive]
            rfl
          simp [Machine.resume, Machine.del, hk, hidle, Status.resumable]
      · obtain ⟨s', hstep⟩ := hcoupled.resume_enabled hsched hactive hevs hpending
        obtain ⟨σ', hσ', -⟩ :=
          hjoint.step halloc (show AddsSucceed σ.proxy .resume from trivial) hstep
        rw [hσ']
        rfl }

end Coupling

noncomputable def firstFree (m : Machine) : Handle :=
  open Classical in if h : ∃ x, m.frames x = none then Nat.find h else 0

theorem firstFree_allocates : Allocates firstFree := by
  intro m h
  classical
  simp only [firstFree, dif_pos h]
  exact Nat.find_spec h

theorem coroutines_scheduled_waitsForRequest :
    ∃ σ, exec (Sys.step .sample firstFree) .init waitsForRequest = some σ ∧
      ((∃ f, σ.proxy.frames 0 = some f ∧ f.waiting = some 4) ∧ σ.proxy.active = none) ∧
      Attended .sample firstFree σ := by
  obtain ⟨s, hrun, f, hid, hwait, hactive, hpc⟩ :
      ∃ s ∈ exec (step .sample) .init waitsForRequest, ∃ f ∈ s.frames 0,
        f.waiting = some 4 ∧ s.active = none ∧ s.pc = .wait := by decide +kernel
  have hmeets : Meets (step .sample) AddsSucceed .init waitsForRequest := by decide +kernel
  obtain ⟨σ, hexec, rfl, hattended⟩ := coroutines_scheduled firstFree_allocates hmeets hrun
  exact ⟨σ, hexec, ⟨⟨f, hid, hwait⟩, hactive⟩, hattended (by rw [hpc]; nofun)⟩

end Muses.Proxy
