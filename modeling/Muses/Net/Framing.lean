import Muses.Net.Descriptors

/-!
# What becomes of the bytes of a connection

What has been read for an entry of the map has been dispatched or is in its buffer, in every run
(`Conserved`). That it was read from the connection's own socket takes that the entry is the
connection's own: this is where a rejected handback breaks the account.
-/

namespace Muses.Reactor

open Muses.Core Function

variable {cfg : Config} {A : Assume} {v v' : View}

/-! ## Conservation -/

/-- Requests dispatched and the rest in the buffer are what was read. -/
structure Conserved (v : View) : Prop where
  entry : ∀ fd c, v.conns fd = some c →
    (v.world.requests c.id).flatten ++ c.buf = v.world.received c.id
  /-- what is read for the entry comes from its own socket as long as the descriptor is its own -/
  socket : ∀ fd c, v.conns fd = some c → v.world.fds fd = some c.id →
    (v.world.socks c.id).taken = v.world.received c.id
  dispatched : ∀ k, (v.world.requests k).flatten <+: v.world.received k
  unused : ∀ k, v.world.accepted ≤ k →
    v.world.requests k = [] ∧ v.world.received k = [] ∧ (v.world.socks k).taken = []

theorem Conserved.init : Conserved .init where
  entry := by simp
  socket := by simp
  dispatched := by simp [World.init]
  unused := by simp [World.init]

/-- Nothing is read or dispatched, and no descriptor becomes an entry's own. -/
theorem Conserved.frame (h : Conserved v)
    (hconns : ∀ fd c', v'.conns fd = some c' →
      ∃ c, v.conns fd = some c ∧ c.id = c'.id ∧ c.buf = c'.buf ∧
        (v'.world.fds fd = some c.id → v.world.fds fd = some c.id))
    (hreq : v'.world.requests = v.world.requests) (hrecv : v'.world.received = v.world.received)
    (htaken : ∀ k, (v'.world.socks k).taken = (v.world.socks k).taken)
    (hacc : v.world.accepted ≤ v'.world.accepted) : Conserved v' where
  entry fd c' hc' := by
    obtain ⟨c, hc, hid, hbuf, -⟩ := hconns fd c' hc'
    rw [hreq, hrecv, ← hid, ← hbuf]
    exact h.entry fd c hc
  socket fd c' hc' hfd := by
    obtain ⟨c, hc, hid, -, hown⟩ := hconns fd c' hc'
    rw [hrecv, htaken, ← hid]
    exact h.socket fd c hc (hown (hid ▸ hfd))
  dispatched k := by
    rw [hreq, hrecv]
    exact h.dispatched k
  unused k hk := by
    rw [hreq, hrecv, htaken]
    exact h.unused k (hacc.trans hk)

variable {fd : Fd} {c : Conn} {w : World}

theorem same_bytes {w' : World} {conns : Fd → Option Conn} {c' : Conn} (hc : conns fd = some c)
    (hid : c'.id = c.id) (hbuf : c'.buf = c.buf) (hfds : w'.fds = w.fds) (g : Fd) (d : Conn)
    (hd : update conns fd (some c') g = some d) :
    ∃ e, conns g = some e ∧ e.id = d.id ∧ e.buf = d.buf ∧
      (w'.fds g = some e.id → w.fds g = some e.id) := by
  by_cases hg : g = fd
  · subst hg
    rw [update_self] at hd
    cases hd
    exact ⟨c, hc, hid.symm, hbuf.symm, by rw [hfds]; exact id⟩
  · rw [update_of_ne hg] at hd
    exact ⟨d, hd, rfl, rfl, by rw [hfds]; exact id⟩

theorem dropped_bytes {conns conns' : Fd → Option Conn}
    (hconns : ∀ g c, conns' g = some c → conns g = some c) (g : Fd) (d : Conn)
    (hd : conns' g = some d) :
    ∃ e, conns g = some e ∧ e.id = d.id ∧ e.buf = d.buf ∧
      (update w.fds fd none g = some e.id → w.fds g = some e.id) := by
  refine ⟨d, hconns g d hd, rfl, rfl, fun hfd => ?_⟩
  by_cases hg : g = fd
  · subst hg
    simp at hfd
  · simpa [hg] using hfd

theorem Numbered.ne_of_ne (h : Numbered v) {g : Fd} {d : Conn} (hc : v.conns fd = some c)
    (hg : g ≠ fd) (hd : v.conns g = some d) : d.id ≠ c.id :=
  fun heq => hg (h.conns_inj g fd d c hd hc heq)

theorem Conserved.consume (h : Conserved v) (hnum : Numbered v) {bs : List UInt8}
    (hc : v.conns fd = some c) (hread : v.world.sysRead fd c.id (.data bs) = some w) :
    Conserved ((v.setWorld w).setConn fd { c with buf := c.buf ++ bs }) := by
  obtain ⟨k, hk, -, -, -, rfl⟩ := World.sysRead_data hread
  refine ⟨fun g d hd => ?_, fun g d hd hfd => ?_, fun j => ?_, fun j hj => ?_⟩
  · by_cases hg : g = fd
    · subst hg
      cases (update_self g _ v.conns).symm.trans hd
      simp [World.setSock, ← h.entry g c hc]
    · have hd : v.conns g = some d := by simpa [hg] using hd
      simpa [World.setSock, hnum.ne_of_ne hc hg hd] using h.entry g d hd
  · by_cases hg : g = fd
    · subst hg
      cases (update_self g _ v.conns).symm.trans hd
      obtain rfl : k = c.id := Option.some.inj (hk.symm.trans hfd)
      simp [World.setSock, h.socket g c hc hk]
    · have hd : v.conns g = some d := by simpa [hg] using hd
      have hne : d.id ≠ k := fun heq => hg (hnum.fds_inj g fd k (heq ▸ hfd) hk)
      simpa [World.setSock, hne, hnum.ne_of_ne hc hg hd] using h.socket g d hd hfd
  · by_cases hj : j = c.id
    · subst hj
      simpa [World.setSock] using (h.dispatched c.id).trans (List.prefix_append _ bs)
    · simpa [World.setSock, hj] using h.dispatched j
  · have hjc : j ≠ c.id := fun heq => Nat.not_le_of_lt (hnum.conns_lt fd c hc) (heq ▸ hj)
    have hjk : j ≠ k := fun heq => Nat.not_le_of_lt (hnum.fds_lt fd k hk) (heq ▸ hj)
    simpa [World.setSock, hjc, hjk] using h.unused j hj

theorem Conserved.dispatch (h : Conserved v) (hnum : Numbered v) (n : Nat)
    (hc : v.conns fd = some c) :
    Conserved (((v.setWorld (v.world.enqueue fd c.id (c.buf.take n))).setConn fd
      { c with dispatched := true, buf := c.buf.drop n }).look none) := by
  have hentry := h.entry fd c hc
  refine ⟨fun g d hd => ?_, fun g d hd hfd => ?_, fun j => ?_, fun j hj => ?_⟩
  · by_cases hg : g = fd
    · subst hg
      cases (update_self g _ v.conns).symm.trans hd
      simpa [World.enqueue] using hentry
    · have hd : v.conns g = some d := by simpa [hg] using hd
      simpa [World.enqueue, hnum.ne_of_ne hc hg hd] using h.entry g d hd
  · by_cases hg : g = fd
    · subst hg
      cases (update_self g _ v.conns).symm.trans hd
      exact h.socket g c hc hfd
    · exact h.socket g d (by simpa [hg] using hd) hfd
  · by_cases hj : j = c.id
    · subst hj
      refine ⟨c.buf.drop n, ?_⟩
      simpa [World.enqueue] using hentry
    · simpa [World.enqueue, hj] using h.dispatched j
  · have hjc : j ≠ c.id := fun heq => Nat.not_le_of_lt (hnum.conns_lt fd c hc) (heq ▸ hj)
    simpa [World.enqueue, hjc] using h.unused j hj

theorem Conserved.enroll (h : Conserved v) (fd : Fd) :
    Conserved ((v.setWorld ((v.world.opened fd).arm fd .Readable true)).setConn fd
      { id := v.world.accepted }) := by
  obtain ⟨hreq, hrecv, htaken⟩ := h.unused v.world.accepted (Nat.le_refl _)
  refine ⟨fun g d hd => ?_, fun g d hd hfd => ?_, fun j => ?_, fun j hj => ?_⟩
  · by_cases hg : g = fd
    · subst hg
      cases (update_self g _ v.conns).symm.trans hd
      simp [World.opened, hreq, hrecv]
    · simpa [World.opened] using h.entry g d (by simpa [hg] using hd)
  · by_cases hg : g = fd
    · subst hg
      cases (update_self g _ v.conns).symm.trans hd
      simp [World.opened, hrecv, htaken]
    · have hfd : v.world.fds g = some d.id := by simpa [World.opened, hg] using hfd
      simpa [World.opened] using h.socket g d (by simpa [hg] using hd) hfd
  · simpa [World.opened] using h.dispatched j
  · simp only [View.setConn_world, View.setWorld_world, World.arm_accepted, World.opened] at hj
    simpa [World.opened] using h.unused j (Nat.le_of_succ_le hj)

theorem Conserved.move (h : Conserved v) (hnum : Numbered v) (hmove : Move cfg A v v') :
    Conserved v' := by
  have hsame (fd : Fd) (c : Conn) (hc : v.conns fd = some c) :
      ∃ d, v.conns fd = some d ∧ d.id = c.id ∧ d.buf = c.buf ∧
        (v.world.fds fd = some d.id → v.world.fds fd = some d.id) := ⟨c, hc, rfl, rfl, id⟩
  cases hmove with
  | env | start | die | handback | reject | goto | poll | stopOutbox | skip | discard | rest | take
  | deny =>
    exact h.frame hsame rfl rfl (fun _ => rfl) (Nat.le_refl _)
  | arrive fd bs harr =>
    have htaken := World.arrive_taken harr
    obtain ⟨c, -, rfl⟩ := World.arrive_eq harr
    exact h.frame hsame rfl rfl htaken (Nat.le_refl _)
  | hangup fd hhang =>
    have htaken := World.hangup_taken hhang
    obtain ⟨c, -, rfl⟩ := World.hangup_eq hhang
    exact h.frame hsame rfl rfl htaken (Nat.le_refl _)
  | closeRejected i job =>
    exact h.frame (dropped_bytes fun _ _ hc => hc) rfl rfl (fun _ => rfl) (Nat.le_refl _)
  | answer hb rest c hf ho hc =>
    exact h.frame (same_bytes hc rfl rfl rfl) rfl rfl (fun _ => rfl) (Nat.le_refl _)
  | consume fd c bs hf hc hread => exact h.consume hnum hc hread
  | emit fd c n hf hc hwrite =>
    have htaken := World.sysWrite_taken hwrite
    obtain ⟨k, -, -, -, rfl⟩ := World.sysWrite_wrote hwrite
    exact h.frame (same_bytes hc rfl rfl rfl) rfl rfl htaken (Nat.le_refl _)
  | park fd c ok hf hc =>
    exact h.frame (same_bytes hc rfl rfl (World.arm_fds _ _ _ _)) (World.arm_requests _ _ _ _)
      (World.arm_received _ _ _ _) (by simp) (by simp)
  | turn fd c ok hf hc =>
    exact h.frame (same_bytes hc rfl rfl (World.arm_fds _ _ _ _)) (World.arm_requests _ _ _ _)
      (World.arm_received _ _ _ _) (by simp) (by simp)
  | dispatch fd c n hf hc => exact h.dispatch hnum n hc
  | close fd c hf hc =>
    refine h.frame (dropped_bytes fun g d hd => ?_) rfl rfl (fun _ => rfl) (Nat.le_refl _)
    by_cases hg : g = fd
    · subst hg; simp at hd
    · simpa [hg] using hd
  | refuse fd hfd =>
    refine h.frame (fun g d hd => ⟨d, hd, rfl, rfl, fun hfds => ?_⟩) rfl rfl (fun _ => rfl)
      (Nat.le_succ _)
    by_cases hg : g = fd
    · subst hg; simp [World.close] at hfds
    · simpa [World.close, World.opened, hg] using hfds
  | enroll fd => exact h.enroll fd
  | clash fd c hfd hlisten hf hc =>
    refine h.frame (fun g d hd => ⟨d, hd, rfl, rfl, fun hfds => ?_⟩) (by simp [World.opened])
      (by simp [World.opened]) (by simp [World.opened]) (by simp [World.opened])
    by_cases hg : g = fd
    · subst hg
      have hid : v.world.accepted = d.id := by simpa [World.opened] using hfds
      exact absurd (hnum.conns_lt g d hd) (hid ▸ Nat.lt_irrefl _)
    · simpa [World.opened, hg] using hfds
  | misfit fd hfd =>
    refine h.frame (fun g d hd => ?_) rfl rfl (fun _ => rfl) (Nat.le_succ _)
    by_cases hg : g = fd
    · subst hg; simp at hd
    · refine ⟨d, by simpa [hg] using hd, rfl, rfl, fun hfds => ?_⟩
      simpa [World.close, World.opened, hg] using hfds

theorem run_conserved {as : List Act} {s : State}
    (hrun : exec (step cfg) (.init cfg) as = some s) : Conserved s.view :=
  (run_invariant_always (I := fun v => Numbered v ∧ Conserved v) ⟨.init, .init⟩
    (fun _ _ h hmove => ⟨h.1.move hmove, h.2.move h.1 hmove⟩) hrun).2

/-- **Byte conservation.** As long as no handback is rejected, every open connection has its entry,
and the requests dispatched for it and then the bytes in its buffer are what has been read from its
socket. -/
theorem byte_conservation {as : List Act} {s : State} {fd : Fd} {k : ConnId}
    (hrun : exec (step cfg) (.init cfg) as = some s)
    (hfit : Meets (step cfg) (PushesFit cfg) (.init cfg) as) (hopen : s.world.fds fd = some k) :
    ∃ conn, s.find fd = some conn ∧ conn.id = k ∧
      (s.world.requests k).flatten ++ conn.readBuf.bytes s.pool = (s.world.socks k).taken := by
  have hentry : (s.view.conns fd).map Conn.id = some k := (run_owned hrun hfit).entries fd ▸ hopen
  obtain ⟨c, hc, rfl⟩ := Option.map_eq_some_iff.mp hentry
  obtain ⟨conn, hfind, rfl⟩ := Option.map_eq_some_iff.mp hc
  have hconserved := run_conserved hrun
  exact ⟨conn, hfind, rfl,
    (hconserved.entry fd _ hc).trans (hconserved.socket fd _ hc hopen).symm⟩

/-- Two bytes of the next request stay in the buffer. -/
theorem byte_conservation_surplus :
    ∃ s ∈ exec (step .sample) (.init .sample)
        (acceptAt 5 ++
          readAt 5 [13, 10, 13, 10, 65, 66] [.data [13, 10, 13, 10, 65, 66], .eagain]),
      ∃ conn, s.find 5 = some conn ∧ conn.id = 0 ∧
        (s.world.requests 0).flatten ++ conn.readBuf.bytes s.pool = (s.world.socks 0).taken := by
  have hends : ∃ s ∈ exec (step .sample) (.init .sample)
        (acceptAt 5 ++
          readAt 5 [13, 10, 13, 10, 65, 66] [.data [13, 10, 13, 10, 65, 66], .eagain]),
      s.world.fds 5 = some 0 := by decide +kernel
  obtain ⟨s, hrun, hopen⟩ := hends
  exact ⟨s, hrun, byte_conservation hrun (by decide +kernel) hopen⟩

/-- Descriptor 7 is used three times. The first client leaves while the worker has its request; the
second sends a request and two bytes more. When it is answered, the outbox holds the handback for
the first client and another one, so that the worker closes the descriptor, and it goes to the third
client. -/
def servedByAnother : List Act :=
  [acceptAt 7, acceptAt 5, requestAt 7,
    [.start, .hangup 7, .poll [⟨7, .Closed⟩], .event {}, .drained, .sweep],
    acceptAt 7, requestAt 5,
    readAt 7 [13, 10, 13, 10, 65, 66] [.data [13, 10, 13, 10, 65, 66], .eagain],
    [.finish 0 (.returns ⟨[82], true⟩), .start, .finish 0 (.returns ⟨[82], true⟩),
      .start, .finish 0 (.returns ⟨[82], true⟩), .closeRejected 0],
    [.connect, .poll [⟨3, .Readable⟩], .acceptAll, .accept (.conn 7 1 true), .accept .eagain,
      .arrive 7 (67 :: terminator),
      .drain { writes := [.wrote 1], reads := [.data (67 :: terminator), .eagain] }]].flatten

/-- The handback for the first client finds the entry of the second, which reads what the third one
has sent: its bytes are dispatched behind two bytes that it never sent. -/
theorem rejectedPush_mixes_bytes :
    ∃ s ∈ exec (step .sample) (.init .sample) servedByAnother,
      s.world.fds 7 = some 3 ∧ (s.world.socks 3).taken = 67 :: terminator ∧
        s.world.requests 3 = [] ∧
        (s.find 7).map (fun conn => (conn.id, conn.readBuf.bytes s.pool)) = some (2, []) ∧
        s.world.queue.map (fun job => (job.fd, job.request)) =
          [(7, [65, 66] ++ 67 :: terminator)] := by
  decide +kernel

/-! ## Framing -/

/-- Every request ends at its first blank line. -/
def Framed (v : View) : Prop := ∀ k, ∀ r ∈ v.world.requests k, Search.IsFrame terminator r

theorem Move.requests_eq (hmove : Move cfg A v v') :
    v'.world.requests = v.world.requests ∨ ∃ k r, (A.clean = true → Search.IsFrame terminator r) ∧
      v'.world.requests = update v.world.requests k (v.world.requests k ++ [r]) := by
  cases hmove with
  | arrive fd bs harr =>
    obtain ⟨c, -, rfl⟩ := World.arrive_eq harr
    exact .inl rfl
  | hangup fd hhang =>
    obtain ⟨c, -, rfl⟩ := World.hangup_eq hhang
    exact .inl rfl
  | consume fd c bs hf hc hread => exact .inl (World.sysRead_sameWork hread).requests
  | emit fd c n hf hc hwrite =>
    obtain ⟨k, -, -, -, rfl⟩ := World.sysWrite_wrote hwrite
    exact .inl rfl
  | park | turn | enroll | clash => exact .inl (World.arm_requests _ _ _ _)
  | dispatch fd c n hf hc hpos hn hA => exact .inr ⟨c.id, c.buf.take n, hA, rfl⟩
  | _ => exact .inl rfl

theorem Framed.move (hA : A.clean = true) (h : Framed v) (hmove : Move cfg A v v') : Framed v' := by
  rcases hmove.requests_eq with heq | ⟨k, r, hr, heq⟩
  · rw [Framed, heq]
    exact h
  · rw [Framed, heq]
    intro j
    by_cases hj : j = k
    · subst hj
      rw [update_self]
      intro r' hr'
      rcases List.mem_append.mp hr' with hr' | hr'
      · exact h j r' hr'
      · rw [List.mem_singleton.mp hr']
        exact hr hA
    · rw [update_of_ne hj]
      exact h j

theorem Assume.holds_of_clean {s : State} {a : Act} (h : ReadsClean s a) :
    Assume.Holds { clean := true } cfg s a where
  fresh := by simp
  noReject := by simp
  noDie := by simp
  noEarlyClose := by simp
  clean _ := h
  polled := by simp

theorem run_framed {as : List Act} {s : State} (hrun : exec (step cfg) (.init cfg) as = some s)
    (hclean : Meets (step cfg) ReadsClean (.init cfg) as) (k : ConnId) :
    (∀ r ∈ s.world.requests k, Search.IsFrame terminator r) ∧
      (s.world.requests k).flatten <+: s.world.received k := by
  have hframed : Framed s.view :=
    run_invariant (A := { clean := true }) (I := Framed) (by simp [Framed, World.init])
      (fun _ _ h hmove => h.move rfl hmove) hrun (hclean.mono fun _ _ => Assume.holds_of_clean)
  exact ⟨hframed k, (run_conserved hrun).dispatched k⟩

/-- **Request framing.** Every request is a single one, and two runs that read the same stream,
however it is cut, dispatch the same requests, as far as both have come. -/
theorem request_framing {as as' : List Act} {s s' : State}
    (hrun : exec (step cfg) (.init cfg) as = some s)
    (hclean : Meets (step cfg) ReadsClean (.init cfg) as)
    (hrun' : exec (step cfg) (.init cfg) as' = some s')
    (hclean' : Meets (step cfg) ReadsClean (.init cfg) as') {k k' : ConnId} {stream : List UInt8}
    (hstream : s.world.received k <+: stream) (hstream' : s'.world.received k' <+: stream) :
    (∀ r ∈ s.world.requests k, Search.IsFrame terminator r) ∧
      (s.world.requests k <+: s'.world.requests k' ∨
        s'.world.requests k' <+: s.world.requests k) := by
  obtain ⟨hframes, hpre⟩ := run_framed hrun hclean k
  obtain ⟨hframes', hpre'⟩ := run_framed hrun' hclean' k'
  exact ⟨hframes, Search.frames_comparable hframes hframes' (hpre.trans hstream)
    (hpre'.trans hstream')⟩

/-- The terminator in one read, and spread over two. -/
theorem request_framing_twoCuts :
    ∃ s ∈ exec (step .sample) (.init .sample)
        (acceptAt 5 ++ readAt 5 terminator [.data [13, 10, 13, 10], .eagain]),
      ∃ s' ∈ exec (step .sample) (.init .sample)
          (acceptAt 5 ++ readAt 5 terminator [.data [13, 10, 13], .data [10], .eagain]),
        s.world.requests 0 ≠ [] ∧ s'.world.requests 0 ≠ [] ∧
          (∀ r ∈ s.world.requests 0, Search.IsFrame terminator r) ∧
          (s.world.requests 0 <+: s'.world.requests 0 ∨
            s'.world.requests 0 <+: s.world.requests 0) := by
  have hends (reads : List World.ReadResult)
      (h : reads = [.data [13, 10, 13, 10], .eagain] ∨
        reads = [.data [13, 10, 13], .data [10], .eagain]) :
      ∃ s ∈ exec (step .sample) (.init .sample) (acceptAt 5 ++ readAt 5 terminator reads),
        s.world.received 0 <+: terminator ∧ s.world.requests 0 ≠ [] := by
    rcases h with rfl | rfl <;> decide +kernel
  obtain ⟨s, hrun, hpre, hne⟩ := hends _ (.inl rfl)
  obtain ⟨s', hrun', hpre', hne'⟩ := hends _ (.inr rfl)
  obtain ⟨hframes, hcomparable⟩ := request_framing hrun (by decide +kernel) hrun'
    (by decide +kernel) hpre hpre'
  exact ⟨s, hrun, s', hrun', hne, hne', hframes, hcomparable⟩

/-- The first read brings a whole request, the second one byte more. No terminator is found in the
new bytes, `scan_pos` falls back to three bytes before the end, and the request is cut there. -/
theorem readOn_cuts_short :
    ∃ s ∈ exec (step .sample) (.init .sample)
        (acceptAt 5 ++
          readAt 5 [13, 10, 13, 10, 65] [.data [13, 10, 13, 10], .data [65], .eagain]),
      s.world.requests 0 = [[13, 10]] ∧ ¬ Search.IsFrame terminator [13, 10] := by
  decide +kernel

end Muses.Reactor
