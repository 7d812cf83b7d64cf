import Muses.Net.Protocol

/-!
# Who works for whom

Three invariants of the connection protocol.

* `Numbered` holds always: connection numbers are given out once, and neither two descriptors nor
  two entries of the map share one.
* `NoClosing` holds as long as no handback is rejected: no worker is about to close a descriptor.
* `Disciplined` holds as long as `accept` returns no descriptor number for which something of an
  earlier connection is still on its way (`Assume.fresh`): every task, busy worker and handback
  finds its own connection, or none, behind its descriptor number, and what is written to a socket
  answers a request of that connection.
-/

namespace Muses.Reactor

open Muses.Core Function List
open World (subperm_of_perm_cons nodup_map_of_subperm)

variable {cfg : Config} {A : Assume} {v v' : View}

/-! ## Connection numbers -/

/-- A connection number stands for one descriptor, and was given out. -/
structure Numbered (v : View) : Prop where
  fds_lt : ∀ fd k, v.world.fds fd = some k → k < v.world.accepted
  fds_inj : ∀ fd fd' k, v.world.fds fd = some k → v.world.fds fd' = some k → fd = fd'
  conns_lt : ∀ fd c, v.conns fd = some c → c.id < v.world.accepted
  conns_inj : ∀ fd fd' c c', v.conns fd = some c → v.conns fd' = some c' → c.id = c'.id → fd = fd'

theorem Numbered.congr (h : Numbered v) (hfds : v'.world.fds = v.world.fds)
    (hacc : v'.world.accepted = v.world.accepted)
    (hconns : ∀ fd c', v'.conns fd = some c' → ∃ c, v.conns fd = some c ∧ c.id = c'.id) :
    Numbered v' where
  fds_lt fd k hk := by
    rw [hacc]
    exact h.fds_lt fd k (by rwa [← hfds])
  fds_inj fd fd' k hk hk' := h.fds_inj fd fd' k (by rwa [← hfds]) (by rwa [← hfds])
  conns_lt fd c' hc' := by
    obtain ⟨c, hc, hid⟩ := hconns fd c' hc'
    rw [hacc, ← hid]
    exact h.conns_lt fd c hc
  conns_inj fd fd' c₁ c₂ h₁ h₂ heq := by
    obtain ⟨d₁, hd₁, hid₁⟩ := hconns fd c₁ h₁
    obtain ⟨d₂, hd₂, hid₂⟩ := hconns fd' c₂ h₂
    exact h.conns_inj fd fd' d₁ d₂ hd₁ hd₂ (by rw [hid₁, hid₂, heq])

variable {fd : Fd} {c c' : Conn} {w : World} {ph : Option Phase}

theorem same_ids {conns : Fd → Option Conn} (hc : conns fd = some c) (hid : c'.id = c.id) (g : Fd)
    (d : Conn) (hd : update conns fd (some c') g = some d) :
    ∃ e, conns g = some e ∧ e.id = d.id := by
  by_cases hg : g = fd
  · subst hg
    rw [update_self] at hd
    cases hd
    exact ⟨c, hc, hid.symm⟩
  · rw [update_of_ne hg] at hd
    exact ⟨d, hd, rfl⟩

theorem Numbered.close (h : Numbered v) (fd : Fd) (k : ConnId)
    (hfds : v'.world.fds = (v.world.close fd k).fds) (hacc : v'.world.accepted = v.world.accepted)
    (hconns : ∀ g c, v'.conns g = some c → v.conns g = some c) : Numbered v' := by
  have hkeep (g : Fd) (j : ConnId) (hj : v'.world.fds g = some j) : v.world.fds g = some j := by
    rw [hfds] at hj
    by_cases hg : g = fd
    · subst hg; simp [World.close] at hj
    · simpa [World.close, update_of_ne hg] using hj
  exact {
    fds_lt := fun g j hj => by rw [hacc]; exact h.fds_lt g j (hkeep g j hj)
    fds_inj := fun g g' j hj hj' => h.fds_inj g g' j (hkeep g j hj) (hkeep g' j hj')
    conns_lt := fun g c hc => by rw [hacc]; exact h.conns_lt g c (hconns g c hc)
    conns_inj := fun g g' c c' hc hc' =>
      h.conns_inj g g' c c' (hconns g c hc) (hconns g' c' hc') }

theorem Numbered.opened (h : Numbered v) (hfd : v.world.fds fd = none) :
    Numbered (v.setWorld (v.world.opened fd)) := by
  have hcases (g : Fd) (j : ConnId) (hj : (v.world.opened fd).fds g = some j) :
      (g = fd ∧ j = v.world.accepted) ∨ v.world.fds g = some j := by
    by_cases hg : g = fd
    · subst hg
      left
      simpa [World.opened, eq_comm] using hj
    · right
      simpa [World.opened, update_of_ne hg] using hj
  refine ⟨fun g j hj => ?_, fun g g' j hj hj' => ?_, fun g c hc => ?_, h.conns_inj⟩
  · rcases hcases g j hj with ⟨-, rfl⟩ | hj
    · exact Nat.lt_succ_self _
    · exact Nat.lt_succ_of_lt (h.fds_lt g j hj)
  · rcases hcases g j hj with ⟨hg, hnew⟩ | hold <;> rcases hcases g' j hj' with ⟨hg', hnew'⟩ | hold'
    · rw [hg, hg']
    · exact absurd (h.fds_lt g' j hold') (hnew ▸ Nat.lt_irrefl _)
    · exact absurd (h.fds_lt g j hold) (hnew' ▸ Nat.lt_irrefl _)
    · exact h.fds_inj g g' j hold hold'
  · exact Nat.lt_succ_of_lt (h.conns_lt g c hc)

theorem Numbered.enroll (h : Numbered v) {k : ConnId} (hk : k < v.world.accepted)
    (hnew : ∀ g c, v.conns g = some c → c.id ≠ k) : Numbered (v.setConn fd { id := k }) := by
  have hcases (g : Fd) (c : Conn) (hc : (v.setConn fd { id := k }).conns g = some c) :
      (g = fd ∧ c.id = k) ∨ v.conns g = some c := by
    by_cases hg : g = fd
    · subst hg
      have : { id := k } = c := by simpa [View.setConn] using hc
      exact .inl ⟨rfl, this ▸ rfl⟩
    · exact .inr (by simpa [View.setConn, update_of_ne hg] using hc)
  refine ⟨h.fds_lt, h.fds_inj, fun g c hc => ?_, fun g g' c c' hc hc' heq => ?_⟩
  · rcases hcases g c hc with ⟨-, hid⟩ | hc
    · exact hid ▸ hk
    · exact h.conns_lt g c hc
  · rcases hcases g c hc with ⟨hg, hid⟩ | hold <;> rcases hcases g' c' hc' with ⟨hg', hid'⟩ | hold'
    · rw [hg, hg']
    · exact absurd (heq ▸ hid) (hnew g' c' hold')
    · exact absurd (heq.trans hid') (hnew g c hold)
    · exact h.conns_inj g g' c c' hold hold' heq

theorem Numbered.init : Numbered .init :=
  ⟨by simp [World.init], by simp [World.init], by simp, by simp⟩

theorem Numbered.move (h : Numbered v) (hmove : Move cfg A v v') : Numbered v' := by
  have hsame (fd : Fd) (c : Conn) (hc : v.conns fd = some c) :
      ∃ d, v.conns fd = some d ∧ d.id = c.id := ⟨c, hc, rfl⟩
  cases hmove with
  | env | start | die | handback | reject | goto | poll | stopOutbox | skip | discard | rest =>
    exact h.congr rfl rfl hsame
  | take | deny => exact h.congr rfl rfl hsame
  | arrive fd bs harr =>
    obtain ⟨c, -, rfl⟩ := World.arrive_eq harr
    exact h.congr rfl rfl hsame
  | hangup fd hhang =>
    obtain ⟨c, -, rfl⟩ := World.hangup_eq hhang
    exact h.congr rfl rfl hsame
  | closeRejected i job => exact h.close job.fd job.origin.conn rfl rfl fun _ _ hc => hc
  | answer hb rest c hf ho hc => exact h.congr rfl rfl (same_ids hc rfl)
  | consume fd c bs hf hc hread =>
    obtain ⟨k, -, -, -, -, rfl⟩ := World.sysRead_data hread
    exact h.congr rfl rfl (same_ids hc rfl)
  | emit fd c n hf hc hwrite =>
    obtain ⟨k, -, -, -, rfl⟩ := World.sysWrite_wrote hwrite
    exact h.congr rfl rfl (same_ids hc rfl)
  | park fd c ok hf hc =>
    exact h.congr (World.arm_fds _ _ _ _) (World.arm_accepted _ _ _ _) (same_ids hc rfl)
  | turn fd c ok hf hc =>
    exact h.congr (World.arm_fds _ _ _ _) (World.arm_accepted _ _ _ _) (same_ids hc rfl)
  | dispatch fd c n hf hc => exact h.congr rfl rfl (same_ids hc rfl)
  | close fd c hf hc =>
    refine h.close fd c.id rfl rfl fun g d hd => ?_
    by_cases hg : g = fd
    · subst hg; simp [View.dropConn, View.look] at hd
    · simpa [View.dropConn, View.look, View.setWorld, update_of_ne hg] using hd
  | refuse fd hfd =>
    exact (h.opened hfd).close fd v.world.accepted rfl rfl fun _ _ hc => hc
  | enroll fd hfd hlisten hf hc =>
    have harmed : Numbered (v.setWorld ((v.world.opened fd).arm fd .Readable true)) :=
      (h.opened hfd).congr (World.arm_fds _ _ _ _) (World.arm_accepted _ _ _ _) hsame
    refine harmed.enroll ?_ fun g c hc => Nat.ne_of_lt (h.conns_lt g c hc)
    simp [View.setWorld, World.opened]
  | clash fd c hfd =>
    exact (h.opened hfd).congr (World.arm_fds _ _ _ _) (World.arm_accepted _ _ _ _) hsame
  | misfit fd hfd =>
    refine (h.opened hfd).close fd v.world.accepted rfl rfl fun g d hd => ?_
    by_cases hg : g = fd
    · subst hg; simp [View.dropConn] at hd
    · simpa [View.dropConn, View.setWorld, update_of_ne hg] using hd

/-! ## Rejected handbacks -/

/-- No worker is about to close a descriptor. -/
def NoClosing (v : View) : Prop := ∀ job, .closing job ∉ v.world.busy

theorem NoClosing.init : NoClosing .init := by simp [NoClosing, World.init]

theorem NoClosing.move (hA : A.noReject = true) (h : NoClosing v) (hmove : Move cfg A v v') :
    NoClosing v' := by
  cases hmove with
  | start job rest hq => simpa [NoClosing] using h
  | die i job hi | handback i job r hi | closeRejected i job hi =>
    exact fun j hj => h j (eraseIdx_subset hj)
  | reject i job r hi hrej => simp [hA] at hrej
  | arrive fd bs harr =>
    obtain ⟨c, -, rfl⟩ := World.arrive_eq harr
    exact h
  | hangup fd hhang =>
    obtain ⟨c, -, rfl⟩ := World.hangup_eq hhang
    exact h
  | consume fd c bs hf hc hread => exact fun j hj => h j ((World.sysRead_sameWork hread).busy ▸ hj)
  | emit fd c n hf hc hwrite =>
    obtain ⟨k, -, -, -, rfl⟩ := World.sysWrite_wrote hwrite
    exact h
  | park | turn | enroll | clash => exact fun j hj => h j (by simpa [World.opened] using hj)
  | _ => exact h

/-! ## Tokens find their own connection -/

/-- What holds of an entry: at most one request of it is on its way. -/
structure Entry (w : World) (fd : Fd) (c : Conn) (ph : Option Phase) : Prop where
  token : ∀ t ∈ w.tokens, t.1 = fd →
    t.2.conn = c.id ∧ c.dispatched = true ∧ c.writing = false ∧ ph ≠ some .write
  writing : c.writing = true → c.dispatched = true ∧ c.origin.conn = c.id
  serving : ph = some .serve → c.dispatched = false
  answering : ph = some .write → c.dispatched = true ∧ c.origin.conn = c.id
  /-- The descriptor is the connection's own, unless a worker has closed it after its handback was
  rejected; the entry is then stale and nothing will be written for it. -/
  owner : w.fds fd = some c.id ∨
    (c.dispatched = true ∧ c.writing = false ∧ ph ≠ some .write ∧ w.Quiet fd)

/-- Requests are answered one at a time, each on its own connection. -/
structure Disciplined (v : View) : Prop where
  /-- at most one task, busy worker or handback for each descriptor number -/
  nodup : (v.world.tokens.map Prod.fst).Nodup
  entry : v.Each Entry
  sent : ∀ k, ∀ e ∈ (v.world.socks k).tx, e.1.conn = k

/-- Fewer tokens, and everything else about the descriptor as it was. -/
theorem Entry.mono {w' : World} (h : Entry w fd c ph)
    (htok : ∀ t ∈ w'.tokens, t.1 = fd → t ∈ w.tokens) (hfds : w'.fds fd = w.fds fd) :
    Entry w' fd c ph where
  token t ht hfd := h.token t (htok t ht hfd) hfd
  writing := h.writing
  serving := h.serving
  answering := h.answering
  owner := by
    rw [hfds]
    refine h.owner.imp_right fun ⟨hdisp, hwriting, hph, hquiet⟩ => ⟨hdisp, hwriting, hph, ?_⟩
    exact fun t ht hfd => hquiet t (htok t ht hfd) hfd

theorem Disciplined.frame (h : Disciplined v) (htok : v'.world.tokens <+~ v.world.tokens)
    (hfds : v'.world.fds = v.world.fds)
    (hsent : ∀ k, (v'.world.socks k).tx = (v.world.socks k).tx) (hconns : v'.conns = v.conns)
    (hfocus : v'.focus = v.focus) : Disciplined v' where
  nodup := nodup_map_of_subperm htok h.nodup
  entry := h.entry.frame hconns hfocus fun fd _ _ hentry =>
    hentry.mono (fun t ht _ => htok.subset ht) (by rw [hfds])
  sent k e he := h.sent k e (hsent k ▸ he)

theorem Disciplined.update (h : Disciplined v) {ph' : Option Phase} {e : Option Conn}
    (hon : v.On fd ph) (hon' : v'.On fd ph') (hnodup : (v'.world.tokens.map Prod.fst).Nodup)
    (htok : ∀ t ∈ v'.world.tokens, t.1 ≠ fd → t ∈ v.world.tokens)
    (hfds : ∀ g, g ≠ fd → v'.world.fds g = v.world.fds g)
    (hconns : v'.conns = update v.conns fd e)
    (hat : ∀ c, e = some c → Entry v'.world fd c ph')
    (hsent : ∀ k, ∀ e ∈ (v'.world.socks k).tx, e.1.conn = k) : Disciplined v' where
  nodup := hnodup
  entry := h.entry.update hon hon' hconns (fun g _ hg _ hentry =>
    hentry.mono (fun t ht htg => htok t ht (htg ▸ hg)) (hfds g hg)) hat
  sent := hsent

theorem Disciplined.rewrite (h : Disciplined v) {ph' : Option Phase} (hon : v.On fd ph)
    (hon' : v'.On fd ph') (htok : v'.world.tokens = v.world.tokens)
    (hfds : v'.world.fds = v.world.fds) (hconns : v'.conns = Function.update v.conns fd (some c'))
    (hsent : ∀ k, ∀ e ∈ (v'.world.socks k).tx, e.1.conn = k) (hat : Entry v.world fd c' ph') :
    Disciplined v' := by
  refine h.update hon hon' (htok ▸ h.nodup) (fun t ht _ => htok ▸ ht) (fun g _ => by rw [hfds])
    hconns (fun d hd => ?_) hsent
  cases hd
  exact hat.mono (fun t ht _ => htok ▸ ht) (by rw [hfds])

theorem quiet_of_perm {w' : World} {t : Fd × Origin} (hnodup : (w.tokens.map Prod.fst).Nodup)
    (hperm : w.tokens ~ t :: w'.tokens) : w'.Quiet t.1 := by
  have := ((hperm.map Prod.fst).nodup_iff).mp hnodup
  intro u hu heq
  refine (nodup_cons.mp this).1 ?_
  exact heq ▸ mem_map_of_mem hu

theorem Entry.same (h : Entry w fd c ph) (hid : c'.id = c.id)
    (hdisp : c'.dispatched = c.dispatched) (hwriting : c'.writing = c.writing)
    (horigin : c'.origin = c.origin) : Entry w fd c' ph where
  token := by rw [hid, hdisp, hwriting]; exact h.token
  writing := by rw [hid, hdisp, hwriting, horigin]; exact h.writing
  serving := by rw [hdisp]; exact h.serving
  answering := by rw [hid, hdisp, horigin]; exact h.answering
  owner := by rw [hid, hdisp, hwriting]; exact h.owner

theorem Entry.look {ph : Phase} (h : Entry w fd c none) (hph : View.Phase.admits c ph) :
    Entry w fd c (some ph) := by
  cases ph with
  | serve =>
    have hdisp : c.dispatched = false := hph
    refine ⟨fun t ht hfd => ?_, h.writing, fun _ => hdisp, by simp, ?_⟩
    · have := (h.token t ht hfd).2.1
      simp [hdisp] at this
    · exact h.owner.imp_right fun ⟨hd, hw, _, hq⟩ => ⟨hd, hw, by simp, hq⟩
  | write =>
    have hwriting : c.writing = true := hph
    refine ⟨fun t ht hfd => ?_, h.writing, by simp, fun _ => h.writing hwriting, ?_⟩
    · have := (h.token t ht hfd).2.2.1
      simp [hwriting] at this
    · exact h.owner.imp_right fun ⟨_, hw, _, _⟩ => by simp [hwriting] at hw
  | shut =>
    refine ⟨fun t ht hfd => ?_, h.writing, by simp, by simp, ?_⟩
    · obtain ⟨hid, hdisp, hwriting, -⟩ := h.token t ht hfd
      exact ⟨hid, hdisp, hwriting, by simp⟩
    · exact h.owner.imp_right fun ⟨hd, hw, _, hq⟩ => ⟨hd, hw, by simp, hq⟩

theorem Entry.write (h : Entry w fd c (some .write)) : w.Quiet fd ∧ w.fds fd = some c.id := by
  refine ⟨fun t ht hfd => (h.token t ht hfd).2.2.2 rfl, ?_⟩
  rcases h.owner with hfds | ⟨-, -, hph, -⟩
  · exact hfds
  · exact absurd rfl hph

theorem Entry.own (h : Entry w fd c ph) (hdisp : c.dispatched = false) : w.fds fd = some c.id := by
  rcases h.owner with hfds | ⟨hd, -⟩
  · exact hfds
  · simp [hdisp] at hd

theorem Entry.serve (h : Entry w fd c (some .serve)) :
    w.Quiet fd ∧ w.fds fd = some c.id ∧ c.dispatched = false ∧ c.writing = false := by
  have hdisp := h.serving rfl
  have hwriting : c.writing = false := by
    by_contra hw
    have := (h.writing (by simpa using hw)).1
    simp [hdisp] at this
  refine ⟨fun t ht hfd => ?_, h.own hdisp, hdisp, hwriting⟩
  have := (h.token t ht hfd).2.1
  simp [hdisp] at this

theorem Entry.of_quiet (hquiet : w.Quiet fd) (hfds : w.fds fd = some c.id)
    (hwriting : c.writing = true → c.dispatched = true ∧ c.origin.conn = c.id)
    (hserve : ph = some .serve → c.dispatched = false)
    (hwrite : ph = some .write → c.dispatched = true ∧ c.origin.conn = c.id) :
    Entry w fd c ph where
  token t ht hfd := absurd hfd (hquiet t ht)
  writing := hwriting
  serving := hserve
  answering := hwrite
  owner := .inl hfds

theorem Disciplined.init : Disciplined .init where
  nodup := nodup_nil
  entry := by simp [View.Each]
  sent := by simp [World.init]

/-- `accept` can only return quiet numbers, by assumption or because nothing is on its way for a
descriptor that is not open. -/
theorem Disciplined.move
    (hA : A.fresh = true ∨ ∀ fd, v.world.fds fd = none → v.world.Quiet fd)
    (h : Disciplined v) (hmove : Move cfg A v v') : Disciplined v' := by
  cases hmove with
  | env | goto | poll | stopOutbox | skip =>
    exact h.frame (List.Subperm.refl _) rfl (fun _ => rfl) rfl rfl
  | arrive fd bs harr =>
    have htx := World.arrive_tx harr
    obtain ⟨c, -, rfl⟩ := World.arrive_eq harr
    exact h.frame (List.Subperm.refl _) rfl htx rfl rfl
  | hangup fd hhang =>
    have htx := World.hangup_tx hhang
    obtain ⟨c, -, rfl⟩ := World.hangup_eq hhang
    exact h.frame (List.Subperm.refl _) rfl htx rfl rfl
  | start job rest hq =>
    exact h.frame (World.tokens_start hq).subperm rfl (fun _ => rfl) rfl rfl
  | die i job hi =>
    exact h.frame (subperm_of_perm_cons (World.tokens_eraseIdx hi)) rfl (fun _ => rfl) rfl rfl
  | handback i job r hi =>
    exact h.frame (World.tokens_handback hi r).subperm rfl (fun _ => rfl) rfl rfl
  | reject i job r hi =>
    exact h.frame (List.Perm.of_eq (World.tokens_set (.closing job) hi rfl)).subperm rfl
      (fun _ => rfl) rfl rfl
  | discard hb rest hf hout =>
    exact h.frame (subperm_of_perm_cons (World.tokens_pop hout)) rfl (fun _ => rfl) rfl rfl
  | closeRejected i job hi hf =>
    have hperm := World.tokens_eraseIdx hi
    have hmem : (job.fd, job.origin) ∈ v.world.tokens := hperm.symm.subset mem_cons_self
    refine h.update (View.on_none hf) (View.on_none hf)
      (nodup_map_of_subperm (subperm_of_perm_cons hperm) h.nodup)
      (fun t ht _ => (subperm_of_perm_cons hperm).subset ht)
      (fun g hg => update_of_ne hg _ _) (v.same_entry job.fd) (fun c hc => ?_) h.sent
    have hentry := h.entry.on (View.on_none hf) hc
    obtain ⟨-, hdisp, hwriting, hph⟩ := hentry.token _ hmem rfl
    have hquiet := quiet_of_perm h.nodup hperm
    exact ⟨fun t ht hfd => absurd hfd (hquiet t ht), hentry.writing, hentry.serving,
      hentry.answering, .inr ⟨hdisp, hwriting, hph, hquiet⟩⟩
  | take e evs c ph hf hpc hc hph =>
    refine h.update (View.on_none hf) (View.on_some rfl) h.nodup (fun t ht _ => ht)
      (fun _ _ => rfl) (v.same_entry e.fd) (fun d hd => ?_) h.sent
    cases hc.symm.trans hd
    exact ((h.entry.on (View.on_none hf) hc).look hph).mono (fun t ht _ => ht) rfl
  | deny hb rest c hf hout hc =>
    have hperm := World.tokens_pop hout
    refine h.update (View.on_none hf) (View.on_some rfl)
      (nodup_map_of_subperm (subperm_of_perm_cons hperm) h.nodup)
      (fun t ht _ => (subperm_of_perm_cons hperm).subset ht)
      (fun _ _ => rfl) (v.same_entry hb.fd) (fun d hd => ?_) h.sent
    cases hc.symm.trans hd
    have hentry : Entry v.world hb.fd c (some .shut) :=
      (h.entry.on (View.on_none hf) hc).look trivial
    exact hentry.mono (fun t ht _ => (subperm_of_perm_cons hperm).subset ht) rfl
  | answer hb rest c hf hout hc =>
    have hperm := World.tokens_pop hout
    have hmem : (hb.fd, hb.origin) ∈ v.world.tokens := hperm.symm.subset mem_cons_self
    refine h.update (View.on_none hf) (View.on_some rfl)
      (nodup_map_of_subperm (subperm_of_perm_cons hperm) h.nodup)
      (fun t ht _ => (subperm_of_perm_cons hperm).subset ht) (fun _ _ => rfl) rfl
      (fun d hd => ?_) h.sent
    have hentry := h.entry.on (View.on_none hf) hc
    obtain ⟨hid, hdisp, hwriting, -⟩ := hentry.token _ hmem rfl
    have hfds : v.world.fds hb.fd = some c.id := by
      rcases hentry.owner with hfds | ⟨-, -, -, hquiet⟩
      · exact hfds
      · exact absurd rfl (hquiet _ hmem)
    cases hd
    exact Entry.of_quiet (quiet_of_perm h.nodup hperm) hfds (by simp [hwriting]) (by simp)
      fun _ => ⟨hdisp, hid⟩
  | consume fd c bs hf hc hread =>
    have htx := World.sysRead_tx hread
    obtain ⟨k, -, -, -, -, rfl⟩ := World.sysRead_data hread
    exact h.rewrite (View.on_some hf) (View.on_some hf) rfl rfl rfl
      (fun j e he => h.sent j e (htx j ▸ he))
      ((h.entry.on (View.on_some hf) hc).same rfl rfl rfl rfl)
  | emit fd c n hf hc hwrite =>
    obtain ⟨k, hk, -, -, rfl⟩ := World.sysWrite_wrote hwrite
    have hentry := h.entry.on (View.on_some hf) hc
    refine h.rewrite (View.on_some hf) (View.on_some hf) rfl rfl rfl ?_
      (hentry.same rfl rfl rfl rfl)
    intro j e he
    by_cases hj : j = k
    · subst hj
      have hid : j = c.id := Option.some.inj (hk.symm.trans hentry.write.2)
      simp only [View.setConn_world, View.setWorld_world, World.setSock, update_self,
        mem_append, mem_singleton] at he
      rcases he with he | rfl
      · exact h.sent j e he
      · exact (hentry.answering rfl).2.trans hid.symm
    · exact h.sent j e (by simpa [World.setSock, hj] using he)
  | park fd c ok hf hc =>
    have hentry := h.entry.on (View.on_some hf) hc
    obtain ⟨hquiet, hfds⟩ := hentry.write
    refine h.rewrite (View.on_some hf) (View.on_none rfl) (World.arm_tokens _ _ _ _)
      (World.arm_fds _ _ _ _) rfl (by simpa using h.sent) ?_
    exact Entry.of_quiet hquiet hfds (fun _ => hentry.answering rfl) (by simp) (by simp)
  | turn fd c ok hf hc =>
    obtain ⟨hquiet, hfds⟩ := (h.entry.on (View.on_some hf) hc).write
    refine h.rewrite (View.on_some hf) (View.on_some rfl) (World.arm_tokens _ _ _ _)
      (World.arm_fds _ _ _ _) rfl (by simpa using h.sent) ?_
    exact Entry.of_quiet hquiet hfds (by simp) (by simp) (by simp)
  | rest fd c k hf hc =>
    obtain ⟨hquiet, hfds, hdisp, hwriting⟩ := (h.entry.on (View.on_some hf) hc).serve
    exact h.rewrite (View.on_some hf) (View.on_none rfl) rfl rfl (hc ▸ v.same_entry fd) h.sent
      (Entry.of_quiet hquiet hfds (by simp [hwriting]) (by simp) (by simp))
  | dispatch fd c n hf hc =>
    obtain ⟨hquiet, hfds, hdisp, hwriting⟩ := (h.entry.on (View.on_some hf) hc).serve
    have hperm := World.tokens_enqueue v.world fd c.id (c.buf.take n)
    refine h.update (View.on_some hf) (View.on_none rfl) ?_ (fun t ht htfd => ?_)
      (fun _ _ => rfl) rfl (fun d hd => ?_) h.sent
    · refine ((hperm.map Prod.fst).nodup_iff).mpr (nodup_cons.mpr ⟨?_, h.nodup⟩)
      rintro hmem
      obtain ⟨t, ht, htfd⟩ := mem_map.mp hmem
      exact hquiet t ht htfd
    · rcases mem_cons.mp (hperm.subset ht) with rfl | ht
      · exact absurd rfl htfd
      · exact ht
    · cases hd
      refine ⟨fun t ht htfd => ?_, by simp [hwriting], by simp, by simp, .inl hfds⟩
      rcases mem_cons.mp (hperm.subset ht) with rfl | ht
      · exact ⟨rfl, rfl, hwriting, by simp⟩
      · exact absurd htfd (hquiet t ht)
  | close fd c hf hc =>
    obtain ⟨ph, hon⟩ := View.on_of_close hf
    exact h.update hon (View.on_none rfl) h.nodup (fun t ht _ => ht)
      (fun g hg => update_of_ne hg _ _) rfl (by simp) h.sent
  | refuse fd hfd hf =>
    refine h.frame (List.Subperm.refl _) ?_ (fun _ => rfl) rfl rfl
    funext g
    by_cases hg : g = fd
    · subst hg; simp [World.close, hfd]
    · simp [World.close, World.opened, hg]
  | enroll fd hfd hlisten hf hc hquiet =>
    refine h.update (View.on_none hf) (View.on_none hf) ?_ ?_ (fun g hg => ?_) rfl
      (fun d hd => ?_) ?_
    · simpa using h.nodup
    · intro t ht _
      simpa using ht
    · simp [World.opened, hg]
    · cases hd
      refine Entry.of_quiet ?_ ?_ (by simp) (by simp) (by simp)
      · intro t ht
        have hq : v.world.Quiet fd := hA.elim hquiet fun hA => hA fd hfd
        exact hq t (by simpa using ht)
      · simp [World.opened]
    · exact fun k e he => h.sent k e (by simpa [World.opened] using he)
  | clash fd c hfd hlisten hf hc hquiet =>
    refine h.update (View.on_none hf) (View.on_none hf) ?_ ?_ (fun g hg => ?_)
      (v.same_entry fd) (fun d hd => ?_) ?_
    · simpa using h.nodup
    · intro t ht _
      simpa using ht
    · simp [World.opened, hg]
    · cases hc.symm.trans hd
      have hentry := h.entry.on (View.on_none hf) hc
      -- the number was free, so the entry is one whose descriptor a worker has closed
      have hstale := hentry.owner.resolve_left (by simp [hfd])
      obtain ⟨hdisp, hwriting, -, hq⟩ := hstale
      have hq' : ((v.world.opened fd).arm fd .Readable true).Quiet fd := by
        intro t ht
        exact hq t (by simpa using ht)
      exact ⟨fun t ht htfd => absurd htfd (hq' t ht), by simp [hwriting], by simp, by simp,
        .inr ⟨hdisp, hwriting, by simp, hq'⟩⟩
    · exact fun k e he => h.sent k e (by simpa [World.opened] using he)
  | misfit fd hfd hf =>
    refine h.update (View.on_none hf) (View.on_none hf) h.nodup (fun t ht _ => ht)
      (fun g hg => ?_) rfl (by simp) h.sent
    simp [World.close, World.opened, hg]

end Muses.Reactor
