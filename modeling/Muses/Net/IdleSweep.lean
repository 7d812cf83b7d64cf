import Muses.Net.Untouched

/-!
# The idle timeout

`sweep_idle_connections` closes the connections whose `last_active` lies more than the timeout back.
`last_active` is set when a connection is accepted, by every read that returns bytes and by every
write, so the sweep closes the connections that are silent, and only those.

* `State.touch` — the time at which a step touches a connection;
* `Allows`, `Holding` — what the handlers do to the entry they work on, and to no other.
-/

namespace Muses.Reactor

open Muses.Core Option

/-! ## Touching a connection -/

def State.handles (s : State) : Act → Option Connection
  | .event _ =>
      match s.world.pc with
      | .batch (e :: _) => s.find e.fd
      | _ => none
  | .drain _ =>
      match s.world.outbox with
      | hb :: _ => s.find hb.fd
      | [] => none
  | _ => none

def brings : World.ReadResult → Bool
  | .data _ => true
  | _ => false

def State.touch (k : ConnId) (s : State) (a : Act) : Option Nat :=
  match a, s.world.pc with
  | .accept _, .accepting now _ _ => if s.world.accepted = k then some now else none
  | .event io, _ =>
      (s.handles a).bind fun c =>
        if c.id = k ∧ (c.writing = true ∨ io.reads.any brings = true) then some s.world.clock
        else none
  | .drain _, _ => (s.handles a).bind fun c => if c.id = k then some s.world.clock else none
  | _, _ => none

/-- The step does not touch connection `k` later than at `t`. -/
def TouchedBy (k : ConnId) (t : Nat) (s : State) (a : Act) : Prop := ∀ t' ∈ s.touch k a, t' ≤ t

instance (k : ConnId) (t : Nat) (s : State) (a : Act) : Decidable (TouchedBy k t s a) :=
  inferInstanceAs (Decidable (∀ t' ∈ s.touch k a, t' ≤ t))

theorem clock_untouched : Untouched World.clock where
  sysRead h := by
    unfold World.sysRead at h
    split at h <;> try split at h
    all_goals cases h
    all_goals rfl
  sysWrite h := by
    unfold World.sysWrite at h
    split at h <;> try split at h
    all_goals cases h
    all_goals rfl
  close _ _ _ := rfl
  arm w fd m ok := by
    unfold World.arm
    split <;> rfl
  enqueue _ _ _ _ := rfl

/-! ## The entries of the map -/

/-- Every connection satisfies `Q`. -/
def Holding (Q : Connection → Prop) (s : State) : Prop := ∀ e ∈ s.connections, Q e.2

def Allows (Q : Connection → Prop) (t : Nat) (conn : Connection) : Prop :=
  ∀ c, c.id = conn.id → (c.lastActive = conn.lastActive ∨ c.lastActive = t) → Q c

variable {Q : Connection → Prop} {t : Nat} {s s' : State} {conn conn' : Connection} {fd : Fd}
  {w : World} {p p' : MemoryPool} {l l' : List (Fd × Connection)} {G : GlobalAllocator} {io : Io}
  {cfg : Config} {k : ConnId}

theorem Allows.self (h : Allows Q t conn) : Q conn := h conn rfl (.inl rfl)

theorem Allows.change (h : Allows Q t conn) (hid : conn'.id = conn.id)
    (htime : conn'.lastActive = conn.lastActive ∨ conn'.lastActive = t) : Allows Q t conn' := by
  intro c hc hact
  refine h c (hc.trans hid) ?_
  rcases hact with hact | hact
  · rw [hact]
    exact htime
  · exact .inr hact

theorem mem_of_erase (h : erase p fd l = some (p', l')) : ∀ e ∈ l', e ∈ l := by
  induction l generalizing p' l' with
  | nil =>
    cases h
    simp
  | cons entry rest ih =>
    simp only [erase] at h
    split at h
    · rw [eraseShift_eq] at h
      obtain ⟨p₁, -, heq⟩ := map_eq_some_iff.mp h
      cases heq
      exact fun e he => List.mem_cons_of_mem _ he
    · obtain ⟨⟨p₁, rest'⟩, hrest, heq⟩ := map_eq_some_iff.mp h
      cases heq
      intro e he
      rcases List.mem_cons.mp he with rfl | he
      · exact List.mem_cons_self
      · exact List.mem_cons_of_mem _ (ih hrest e he)

theorem mem_of_emplace (h : emplace p fd conn l = some (p', l')) :
    ∀ e ∈ l', e ∈ l ∨ e = (fd, conn) := by
  induction l generalizing p' l' with
  | nil =>
    simp only [emplace, insertShift_eq] at h
    cases h
    simp
  | cons entry rest ih =>
    simp only [emplace] at h
    split at h
    · rw [insertShift_eq] at h
      cases h
      intro e he
      exact (List.mem_cons.mp he).symm
    · split at h
      · obtain ⟨p₁, -, heq⟩ := map_eq_some_iff.mp h
        cases heq
        exact fun e he => .inl he
      · obtain ⟨⟨p₁, rest'⟩, hrest, heq⟩ := map_eq_some_iff.mp h
        cases heq
        intro e he
        rcases List.mem_cons.mp he with rfl | he
        · exact .inl List.mem_cons_self
        · exact (ih hrest e he).imp_left (List.mem_cons_of_mem _)

namespace Holding

theorem put (h : Holding Q s) (hconn : Q conn) : Holding Q (s.put w p fd conn) := by
  intro e he
  obtain ⟨e₀, he₀, rfl⟩ := List.mem_map.mp he
  split
  · exact hconn
  · exact h e₀ he₀

theorem closeConnection (h : Holding Q s) (hclose : s.closeConnection fd = some s') :
    Holding Q s' := by
  unfold State.closeConnection at hclose
  split at hclose
  · cases hclose
    exact h
  · obtain ⟨⟨p', l'⟩, herase, rfl⟩ := map_eq_some_iff.mp hclose
    exact fun e he => h e (mem_of_erase herase e he)

theorem dispatchToWorker (h : Holding Q s) (hconn : Allows Q t conn) :
    Holding Q (s.dispatchToWorker fd conn) :=
  h.put (hconn _ rfl (.inl rfl))

theorem checkBufferedRequest (h : Holding Q s) (hconn : Allows Q t conn) :
    Holding Q (s.checkBufferedRequest conn) := by
  unfold State.checkBufferedRequest
  split
  · exact h
  · split
    · exact h
    · split
      · exact h.dispatchToWorker (hconn.change rfl (.inl rfl))
      · exact h

/-- The loop that reads leaves the connection as it was, but for its buffer and, after a read that
returned bytes, its deadline. -/
theorem readLoop {onData : World → MemoryPool → Nat → Connection → Connection × Bool}
    (hdata : ∀ w p n c, w.clock = t → (onData w p n c).1.id = c.id ∧
      ((onData w p n c).1.lastActive = c.lastActive ∨ (onData w p n c).1.lastActive = t))
    (ht : w.clock = t) (hconn : Allows Q t conn) {got : Bool} {rs : List World.ReadResult}
    {r : World × MemoryPool × Connection × ReadEnd}
    (h : Reactor.readLoop G fd onData w p conn got rs = some r) : Allows Q t r.2.2.1 := by
  induction rs generalizing w p conn got with
  | nil => cases h
  | cons r₀ rs ih =>
    obtain ⟨w₁, hread, h⟩ := bind_eq_some_iff.mp h
    have ht₁ : w₁.clock = t := (clock_untouched.sysRead hread).trans ht
    cases r₀ with
    | data bs =>
      obtain ⟨⟨p₁, buf, ok⟩, -, h⟩ := bind_eq_some_iff.mp h
      have hbuf : Allows Q t { conn with readBuf := buf } := hconn.change rfl (.inl rfl)
      simp only at h
      split at h
      · cases h
        exact hbuf
      · obtain ⟨hid, htime⟩ := hdata w₁ p₁ conn.readBuf.len { conn with readBuf := buf } ht₁
        exact ih ht₁ (hbuf.change hid htime) h
    | eintr => exact ih ht₁ hconn h
    | eof | eagain | error =>
      cases h
      exact hconn

theorem finishResponse (h : Holding Q s) (ht : s.world.clock = t) (hconn : Allows Q t conn)
    (hfinish : s.finishResponse G conn io = some s') : Holding Q s' := by
  unfold State.finishResponse at hfinish
  split at hfinish
  · obtain ⟨⟨w, p, conn', e⟩, hdrain, hfinish⟩ := bind_eq_some_iff.mp hfinish
    have harmed : (s.world.arm conn.fd .Readable io.modOk).clock = t :=
      (clock_untouched.arm _ _ _ _).trans ht
    have hconn' : Allows Q t conn' := by
      refine readLoop (fun _ _ _ _ _ => ⟨rfl, .inl rfl⟩) harmed (hconn.change ?_ ?_) hdrain
      · rfl
      · exact .inr ht
    have hput : Holding Q (s.put w p conn.fd conn') := h.put hconn'.self
    cases e with
    | close => exact hput.closeConnection hfinish
    | drained =>
      cases hfinish
      exact hput.checkBufferedRequest hconn'
  · have hset : Holding Q (s.put s.world s.pool conn.fd conn) := h.put hconn.self
    exact closeConnection (s := s.setConn conn.fd conn) hset hfinish

theorem settleWrite (h : Holding Q s) (ht : s.world.clock = t) (hconn : Allows Q t conn)
    (hsettle : s.settleWrite G conn io = some s') : Holding Q s' := by
  unfold State.settleWrite at hsettle
  split at hsettle
  · refine h.finishResponse ht (hconn.change ?_ ?_) hsettle
    · rfl
    · exact .inl rfl
  · cases hsettle
    exact h.put (hconn _ rfl (.inl rfl))

theorem continueWrite (h : Holding Q s) (ht : s.world.clock = t) (hconn : Allows Q t conn)
    (hwrite : s.continueWrite G conn io = some s') : Holding Q s' := by
  unfold State.continueWrite at hwrite
  split at hwrite
  · obtain ⟨⟨w, wrote⟩, htry, hwrite⟩ := bind_eq_some_iff.mp hwrite
    have hclock : w.clock = t := (clock_untouched.tryWrite htry).trans ht
    cases wrote with
    | none =>
      refine (h.put (hconn _ ?_ ?_)).closeConnection hwrite
      · rfl
      · exact .inl rfl
    | some wrote =>
      have hnow : Holding Q { s with world := w } := h
      refine hnow.settleWrite hclock (hconn.change ?_ ?_) hwrite
      · rfl
      · exact .inr hclock
  · exact h.settleWrite ht hconn hwrite

theorem scanData_stamps (w : World) (p : MemoryPool) (n : Nat) (c : Connection)
    (ht : w.clock = t) : (scanData w p n c).1.id = c.id ∧
      ((scanData w p n c).1.lastActive = c.lastActive ∨ (scanData w p n c).1.lastActive = t) := by
  exact ⟨rfl, .inr ht⟩

theorem readLoop_silent {onData : World → MemoryPool → Nat → Connection → Connection × Bool}
    {got : Bool} {rs : List World.ReadResult} {r : World × MemoryPool × Connection × ReadEnd}
    (hsilent : rs.any brings = false)
    (h : Reactor.readLoop G fd onData w p conn got rs = some r) : r.2.2.1 = conn := by
  induction rs generalizing w with
  | nil => cases h
  | cons r₀ rs ih =>
    rw [List.any_cons, Bool.or_eq_false_iff] at hsilent
    obtain ⟨w₁, hread, h⟩ := bind_eq_some_iff.mp h
    cases r₀ with
    | data bs => cases hsilent.1
    | eintr => exact ih hsilent.2 h
    | eof | eagain | error =>
      cases h
      rfl

theorem serve (h : Holding Q s) {r : World × MemoryPool × Connection × ReadEnd}
    (hr : Allows Q t r.2.2.1) (hserve : (match r.2.2.2 with
      | .close => (s.put r.1 r.2.1 fd r.2.2.1).closeConnection fd
      | .drained true => some ((s.put r.1 r.2.1 fd r.2.2.1).dispatchToWorker fd r.2.2.1)
      | .drained false => some (s.put r.1 r.2.1 fd r.2.2.1)) = some s') : Holding Q s' := by
  have hput : Holding Q (s.put r.1 r.2.1 fd r.2.2.1) := h.put hr.self
  split at hserve
  · exact hput.closeConnection hserve
  · cases hserve
    exact hput.dispatchToWorker hr
  · cases hserve
    exact hput

theorem onClientEvent (h : Holding Q s) (ht : s.world.clock = t)
    (hconn : ∀ c, s.find fd = some c → Allows Q t c ∨
      (Allows Q c.lastActive c ∧ c.writing = false ∧ io.reads.any brings = false))
    {mask : EventMask} (hevent : s.onClientEvent G fd mask io = some s') : Holding Q s' := by
  unfold State.onClientEvent at hevent
  split at hevent
  · exact h.closeConnection hevent
  · split at hevent
    · split at hevent
      · rename_i c hfind
        split at hevent
        · rename_i hwriting
          rcases hconn c hfind with hc | ⟨-, hquiet, -⟩
          · exact h.continueWrite ht hc hevent
          · simp [hquiet] at hwriting
        · cases hevent
          exact h
      · cases hevent
        exact h
    · split at hevent
      · cases hevent
        exact h
      · split at hevent
        · cases hevent
          exact h
        · rename_i c hfind
          split at hevent
          · cases hevent
            exact h
          · obtain ⟨r, hread, hserve⟩ := bind_eq_some_iff.mp hevent
            rcases hconn c hfind with hc | ⟨hc, -, hsilent⟩
            · exact h.serve (readLoop scanData_stamps ht hc hread) hserve
            · exact h.serve (readLoop_silent hsilent hread ▸ hc) hserve

theorem drainHandback (h : Holding Q s) (ht : s.world.clock = t) {hb : WorkerHandback}
    (hconn : ∀ c, s.find hb.fd = some c → Allows Q t c)
    (hdrain : s.drainHandback G hb io = some s') : Holding Q s' := by
  unfold State.drainHandback at hdrain
  split at hdrain
  · cases hdrain
    exact h
  · rename_i c hfind
    split at hdrain
    · exact h.closeConnection hdrain
    · refine h.continueWrite ht ((hconn c hfind).change ?_ ?_) hdrain
      · rfl
      · exact .inl rfl

theorem closeAll (h : Holding Q s) {fds : List Fd} (hclose : s.closeAll fds = some s') :
    Holding Q s' := by
  induction fds generalizing s with
  | nil =>
    cases hclose
    exact h
  | cons fd fds ih =>
    obtain ⟨s₁, hone, hrest⟩ := bind_eq_some_iff.mp hclose
    exact ih (h.closeConnection hone) hrest

theorem register (h : Holding Q s) {ip : UInt32} {id : ConnId} {now : Nat} {addOk : Bool}
    (hnew : ∀ c : Connection, c.id = id → c.lastActive = now → Q c)
    (hregister : s.register cfg fd ip id now addOk = some s') : Holding Q s' := by
  obtain ⟨⟨p₁, fresh⟩, -, hregister⟩ := bind_eq_some_iff.mp hregister
  obtain ⟨⟨p₂, buf, left⟩, -, hregister⟩ := bind_eq_some_iff.mp hregister
  obtain ⟨⟨p₃, conns⟩, hemplace, hregister⟩ := bind_eq_some_iff.mp hregister
  have hmem : ∀ e ∈ conns, Q e.2 := by
    intro e he
    rcases mem_of_emplace hemplace e he with he | rfl
    · exact h e he
    · exact hnew _ rfl rfl
  simp only at hregister
  split at hregister
  · cases hregister
    exact hmem
  · obtain ⟨⟨p₄, l⟩, herase, rfl⟩ := map_eq_some_iff.mp hregister
    exact fun e he => hmem e (mem_of_erase herase e he)

theorem acceptRound (h : Holding Q s) {now accepted : Nat} {evs : List PollEvent}
    {r : AcceptResult}
    (hnew : ∀ c : Connection, c.id = s.world.accepted → c.lastActive = now → Q c)
    (hround : s.acceptRound cfg now accepted evs r = some s') : Holding Q s' := by
  unfold State.acceptRound at hround
  split at hround
  · cases hround
  · cases r with
    | eagain =>
      simp only at hround
      split at hround <;> cases hround
      exact h
    | eintr =>
      cases hround
      exact h
    | error =>
      cases hround
      exact h
    | conn fd ip addOk =>
      simp only at hround
      split at hround
      · obtain ⟨bl, win, hgate⟩ := ipGate_same cfg (({ s with world := s.world.opened fd } :
          State).setPc (.accepting now (accepted + 1) evs)) ip now
        rw [hgate] at hround
        split at hround
        · cases hround
          exact h
        · refine Holding.register ?_ hnew hround
          exact h
      · cases hround

end Holding

abbrev ActiveBy (k : ConnId) (t : Nat) (c : Connection) : Prop := c.id = k → c.lastActive ≤ t

theorem sweepIpRate_connections (cfg : Config) (s : State) :
    (s.sweepIpRate cfg).connections = s.connections := by
  unfold State.sweepIpRate
  split
  · rfl
  · split <;> rfl

theorem activeBy_loopStep {a : Act} (h : Holding (ActiveBy k t) s) (htouch : TouchedBy k t s a)
    (hloop : loopStep cfg s s.world.pc a = some s') : Holding (ActiveBy k t) s' := by
  have hsame (c : Connection) (hc : ActiveBy k t c) (t' : Nat) (hle : c.id = k → t' ≤ t) :
      Allows (ActiveBy k t) t' c := by
    rintro c' hid (hact | hact) heq
    · exact hact ▸ hc (hid.symm.trans heq)
    · exact hact ▸ hle (hid.symm.trans heq)
  have hmem {fd : Fd} {c : Connection} (hfind : s.find fd = some c) : ActiveBy k t c := by
    obtain ⟨l₁, l₂, hl, -⟩ := List.lookup_eq_some_iff.mp hfind
    exact h (fd, c) (by rw [hl]; simp)
  generalize hpc : s.world.pc = pc at hloop
  unfold loopStep at hloop
  split at hloop
  case h_5 e evs io =>
    split at hloop
    · cases hloop
    · refine Holding.onClientEvent (s := s.setPc (.batch evs)) h rfl (fun c hfind => ?_) hloop
      have hfind : s.find e.fd = some c := hfind
      by_cases hbusy : c.writing = true ∨ io.reads.any brings = true
      · refine .inl (hsame c (hmem hfind) _ fun hid => ?_)
        refine htouch _ ?_
        simp only [State.touch, State.handles, hpc, hfind, bind_some, hid, hbusy, and_self,
          if_true]
        rfl
      · obtain ⟨hwriting, hsilent⟩ := not_or.mp hbusy
        refine .inr ⟨hsame c (hmem hfind) _ (hmem hfind), ?_, ?_⟩
        · simpa using hwriting
        · simpa using hsilent
  case h_6 io =>
    split at hloop
    · rename_i hb rest houtbox
      refine Holding.drainHandback (s := { s with world := { s.world with outbox := rest } }) h rfl
        (fun c hfind => ?_) hloop
      have hfind : s.find hb.fd = some c := hfind
      refine hsame c (hmem hfind) _ fun hid => htouch _ ?_
      simp only [State.touch, State.handles, houtbox, hfind, bind_some, hid, if_true]
      rfl
    · cases hloop
  case h_8 now accepted evs r =>
    refine h.acceptRound (fun c hid hact heq => ?_) hloop
    rw [hact]
    refine htouch now ?_
    simp only [State.touch, hpc, hid.symm.trans heq, if_true]
    rfl
  case h_10 =>
    obtain ⟨s₁, hsweep, rfl⟩ := map_eq_some_iff.mp hloop
    unfold State.sweepIdleConnections at hsweep
    split at hsweep
    · cases hsweep
      exact fun e he => h e (sweepIpRate_connections cfg _ ▸ he)
    · exact fun e he => h.closeAll hsweep e (sweepIpRate_connections cfg _ ▸ he)
  case h_11 =>
    obtain ⟨p, -, rfl⟩ := map_eq_some_iff.mp hloop
    simp [Holding]
  case h_12 => cases hloop
  all_goals
    try split at hloop
    all_goals cases hloop
    all_goals exact h

theorem activeBy_step {a : Act} (h : Holding (ActiveBy k t) s) (htouch : TouchedBy k t s a)
    (hstep : step cfg s a = some s') : Holding (ActiveBy k t) s' := by
  unfold step at hstep
  split at hstep
  case h_9 => exact activeBy_loopStep h htouch hstep
  all_goals
    first
    | (cases hstep; exact h)
    | (obtain ⟨w, -, rfl⟩ := map_eq_some_iff.mp hstep; exact h)

/-! ## The sweep -/

theorem closeConnection_gone (hs : (keys s.connections).Nodup)
    (h : s.closeConnection fd = some s') :
    (keys s'.connections).Nodup ∧ ∀ e ∈ s'.connections, e ∈ s.connections ∧ e.1 ≠ fd := by
  unfold State.closeConnection at h
  split at h
  · rename_i hfind
    cases h
    refine ⟨hs, fun e he => ⟨he, ?_⟩⟩
    rintro rfl
    exact lookup_eq_none_iff.mp hfind (List.mem_map_of_mem he)
  · rename_i c hfind
    obtain ⟨⟨p', l'⟩, herase, rfl⟩ := map_eq_some_iff.mp h
    obtain ⟨-, hperm, hsub⟩ := erase_eq hs hfind herase
    have hnodup : (fd :: keys l').Nodup := ((hperm.map Prod.fst).nodup_iff).mp hs
    refine ⟨(List.nodup_cons.mp hnodup).2, fun e he => ⟨hsub.subset he, ?_⟩⟩
    rintro rfl
    exact (List.nodup_cons.mp hnodup).1 (List.mem_map_of_mem he)

theorem closeAll_gone {fds : List Fd} (hs : (keys s.connections).Nodup)
    (h : s.closeAll fds = some s') : ∀ e ∈ s'.connections, e ∈ s.connections ∧ e.1 ∉ fds := by
  induction fds generalizing s with
  | nil =>
    cases h
    simp
  | cons fd fds ih =>
    obtain ⟨s₁, hone, hrest⟩ := bind_eq_some_iff.mp h
    obtain ⟨hs₁, hgone⟩ := closeConnection_gone hs hone
    intro e he
    obtain ⟨hmem, hnot⟩ := ih hs₁ hrest e he
    obtain ⟨hmem, hne⟩ := hgone e hmem
    exact ⟨hmem, by simp [hne, hnot]⟩

/-- **A silent connection is closed.** Take any run, and a connection that the run has accepted,
read from and written to at `t` at the latest. A sweep more than the timeout later leaves it
closed. -/
theorem silent_connection_closed (htimeout : cfg.idleTimeout ≠ 0) {acts : List Act}
    (hrun : exec (step cfg) (State.init cfg) acts = some s)
    (htouch : Meets (step cfg) (TouchedBy k t) (State.init cfg) acts)
    (hlong : t + cfg.idleTimeout * second < s.world.clock)
    (hsweep : step cfg s .sweep = some s') : ∀ e ∈ s'.connections, e.2.id ≠ k := by
  have hactive : Holding (ActiveBy k t) s :=
    exec_invariant_of_meets (fun _ _ _ h htouch hstep => activeBy_step h htouch hstep)
      (by simp [Holding, State.init]) htouch hrun
  have hwf := (run_moves_always (init_wf cfg) hrun).1
  have hloop : loopStep cfg s s.world.pc .sweep = some s' := hsweep
  generalize s.world.pc = pc at hloop
  cases pc <;> simp only [loopStep, reduceCtorEq] at hloop
  obtain ⟨s₁, hclosed, rfl⟩ := map_eq_some_iff.mp hloop
  simp only [State.sweepIdleConnections, htimeout, if_false] at hclosed
  intro e he hid
  obtain ⟨hmem, hnot⟩ := closeAll_gone (keys_nodup hwf.sorted) hclosed e
    (sweepIpRate_connections cfg s₁ ▸ he)
  have hold := hactive e hmem hid
  refine hnot (List.mem_map_of_mem (List.mem_filter.mpr ⟨hmem, ?_⟩))
  simp only [gt_iff_lt, decide_eq_true_eq]
  omega

def Config.oneSecond : Config := { Config.sample with idleTimeout := 1 }

/-- A client connects, sends a letter, and falls silent. -/
theorem silent_connection_closed_oneLetter :
    ∃ s ∈ exec (step .oneSecond) (State.init .oneSecond)
        (acceptAt 5 ++ readAt 5 [71] [.data [71], .eagain] ++
          [.tick 1100000000, .poll [], .drained]),
      (s.find 5).isSome = true ∧
      ∃ s' ∈ step .oneSecond s .sweep, ∀ e ∈ s'.connections, e.2.id ≠ 0 := by
  have hends : ∃ s ∈ exec (step .oneSecond) (State.init .oneSecond)
      (acceptAt 5 ++ readAt 5 [71] [.data [71], .eagain] ++
        [.tick 1100000000, .poll [], .drained]),
      (s.find 5).isSome = true ∧ 0 + Config.oneSecond.idleTimeout * second < s.world.clock ∧
        ∃ s' ∈ step .oneSecond s .sweep, s'.connections.length = 0 := by decide +kernel
  obtain ⟨s, hrun, hopen, hlong, s', hsweep, -⟩ := hends
  exact ⟨s, hrun, hopen, s', hsweep,
    silent_connection_closed (by decide) hrun (by decide +kernel) hlong hsweep⟩

/-- **A trickling client stays.** With a timeout of one second a client sends a letter every 900 ms:
at 1.8 s, right after the sweep, the connection accepted at time 0 is open, not dispatched, and no
request of it was ever handed to a worker. -/
theorem trickling_client_stays :
    ∃ s ∈ exec (step .oneSecond) (State.init .oneSecond)
        (acceptAt 5 ++ .tick 900000000 :: readAt 5 [71] [.data [71], .eagain] ++
          .tick 900000000 :: readAt 5 [69] [.data [69], .eagain]),
      s.world.clock = 1800000000 ∧ s.world.accepted = 1 ∧ s.world.requests 0 = [] ∧
        ∃ c ∈ s.find 5, c.id = 0 ∧ c.dispatched = false := by
  decide +kernel

end Muses.Reactor
