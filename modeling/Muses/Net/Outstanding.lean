import Muses.Net.Refinement
import Muses.Net.Discipline

/-!
# One token for each dispatched connection
-/

namespace Muses.Reactor

open Muses.Core

variable {cfg : Config} {A : Assume} {v v' : View}

/-- Someone is at work for a connection that has a request outstanding. -/
structure Attended (w : World) (fd : Fd) (c : Conn) (ph : Option Phase) : Prop where
  busy : c.dispatched = true → (∃ t ∈ w.tokens, t.1 = fd) ∨ c.writing = true ∨ ph ≠ none
  parked : c.writing = true → ph ≠ some .write → c.writeOff < c.writeBuf.length

def Served (v : View) : Prop := v.Each Attended

theorem Served.init : Served .init := by simp [Served, View.Each]

theorem Attended.mono {w w' : World} {fd : Fd} {c : Conn} {ph : Option Phase}
    (h : Attended w fd c ph) (htok : ∀ t ∈ w.tokens, t.1 = fd → t ∈ w'.tokens) :
    Attended w' fd c ph where
  busy hdisp := (h.busy hdisp).imp_left fun ⟨t, ht, hfd⟩ => ⟨t, htok t ht hfd, hfd⟩
  parked := h.parked

theorem Served.frame (h : Served v) (htok : v.world.tokens ⊆ v'.world.tokens)
    (hconns : v'.conns = v.conns) (hfocus : v'.focus = v.focus) : Served v' :=
  View.Each.frame h hconns hfocus fun _ _ _ hatt => hatt.mono fun _ ht _ => htok ht

theorem Served.update (h : Served v) {fd : Fd} {ph ph' : Option Phase} {e : Option Conn}
    (hon : v.On fd ph) (hon' : v'.On fd ph')
    (htok : ∀ t ∈ v.world.tokens, t.1 ≠ fd → t ∈ v'.world.tokens)
    (hconns : v'.conns = Function.update v.conns fd e)
    (hat : ∀ c, e = some c → Attended v'.world fd c ph') : Served v' :=
  View.Each.update h hon hon' hconns
    (fun _ _ hg _ hatt => hatt.mono fun t ht htg => htok t ht (htg ▸ hg)) hat

theorem Served.move (hdie : A.noDie = true) (hclosing : NoClosing v) (hdisc : Disciplined v)
    (h : Served v) (hmove : Move cfg A v v') : Served v' := by
  cases hmove with
  | env | goto | poll | stopOutbox | skip =>
    exact h.frame (List.Subset.refl _) rfl rfl
  | arrive fd bs harr =>
    obtain ⟨c, -, rfl⟩ := World.arrive_eq harr
    exact h.frame (List.Subset.refl _) rfl rfl
  | hangup fd hhang =>
    obtain ⟨c, -, rfl⟩ := World.hangup_eq hhang
    exact h.frame (List.Subset.refl _) rfl rfl
  | start job rest hq =>
    exact h.frame (World.tokens_start hq).symm.subset rfl rfl
  | die i job hi hA => simp [hdie] at hA
  | reject i job r hi =>
    exact h.frame (List.Perm.of_eq (World.tokens_set (.closing job) hi rfl)).symm.subset rfl rfl
  | handback i job r hi =>
    exact h.frame (World.tokens_handback hi r).symm.subset rfl rfl
  | closeRejected i job hi => exact absurd (List.mem_of_getElem? hi) (hclosing job)
  | discard hb rest hf hout hc =>
    refine h.update (View.on_none hf) (View.on_none hf) (fun _ => World.mem_tokens_pop hout)
      (v.same_entry hb.fd) fun d hd => ?_
    cases hc.symm.trans hd
  | take e evs c ph hf hpc hc hph =>
    refine h.update (View.on_none hf) (View.on_some rfl) (fun _ ht _ => ht) (v.same_entry e.fd)
      fun d hd => ?_
    exact ⟨fun _ => .inr (.inr (by simp)), fun hw _ => (h.on (View.on_none hf) hd).parked
      hw (by simp)⟩
  | deny hb rest c hf hout hc =>
    refine h.update (View.on_none hf) (View.on_some rfl) (fun _ => World.mem_tokens_pop hout)
      (v.same_entry hb.fd) fun d hd => ?_
    exact ⟨fun _ => .inr (.inr (by simp)), fun hw _ =>
      (h.on (View.on_none hf) hd).parked hw (by simp)⟩
  | answer hb rest c hf hout hc =>
    refine h.update (View.on_none hf) (View.on_some rfl) (fun _ => World.mem_tokens_pop hout) rfl
      fun d hd => ?_
    exact ⟨fun _ => .inr (.inr (by simp)), fun _ hph => absurd rfl hph⟩
  | consume fd c bs hf hc hread =>
    have hwork := World.sysRead_sameWork hread
    refine h.update (View.on_some hf) (View.on_some hf) (fun t ht _ => hwork.tokens.symm ▸ ht) rfl
      fun d hd => ?_
    cases hd
    exact ⟨fun _ => .inr (.inr (by simp)), (h.on (View.on_some hf) hc).parked⟩
  | emit fd c n hf hc hwrite =>
    obtain ⟨k, -, -, -, rfl⟩ := World.sysWrite_wrote hwrite
    refine h.update (View.on_some hf) (View.on_some hf) (fun _ ht _ => ht) rfl fun d hd => ?_
    exact ⟨fun _ => .inr (.inr (by simp)), fun _ hph => absurd rfl hph⟩
  | park fd c ok hf hc hoff =>
    refine h.update (View.on_some hf) (View.on_none rfl) (fun t ht _ => by simpa using ht) rfl
      fun d hd => ?_
    cases hd
    exact ⟨fun _ => .inr (.inl rfl), fun _ _ => hoff⟩
  | turn fd c ok hf hc =>
    refine h.update (View.on_some hf) (View.on_some rfl) (fun t ht _ => by simpa using ht) rfl
      fun d hd => ?_
    cases hd
    exact ⟨by simp, by simp⟩
  | rest fd c k hf hc =>
    obtain ⟨-, -, hdisp, hwriting⟩ := (hdisc.entry.on (View.on_some hf) hc).serve
    refine h.update (View.on_some hf) (View.on_none rfl) (fun _ ht _ => ht) (v.same_entry fd)
      fun d hd => ?_
    cases hc.symm.trans hd
    exact ⟨by simp [hdisp], by simp [hwriting]⟩
  | dispatch fd c n hf hc =>
    obtain ⟨-, -, -, hwriting⟩ := (hdisc.entry.on (View.on_some hf) hc).serve
    have hperm := World.tokens_enqueue v.world fd c.id (c.buf.take n)
    refine h.update (View.on_some hf) (View.on_none rfl)
      (fun t ht _ => hperm.symm.subset (List.mem_cons_of_mem _ ht)) rfl fun d hd => ?_
    cases hd
    exact ⟨fun _ => .inl ⟨_, hperm.symm.subset List.mem_cons_self, rfl⟩, by simp [hwriting]⟩
  | close fd c hf hc =>
    obtain ⟨ph, hon⟩ := View.on_of_close hf
    exact h.update hon (View.on_none rfl) (fun _ ht _ => ht) rfl nofun
  | refuse fd hfd hf => exact h.frame (List.Subset.refl _) rfl rfl
  | enroll fd hfd hlisten hf hc =>
    have hwork := (World.sameWork_opened v.world fd).trans (World.sameWork_arm _ fd .Readable true)
    refine h.update (View.on_none hf) (View.on_none hf) (fun t ht _ => hwork.tokens.symm ▸ ht) rfl
      fun d hd => ?_
    cases hd
    exact ⟨by simp, by simp⟩
  | clash fd c =>
    have hwork := (World.sameWork_opened v.world fd).trans (World.sameWork_arm _ fd .Readable true)
    exact h.frame (fun t ht => hwork.tokens.symm ▸ ht) rfl rfl
  | misfit fd hfd hf =>
    exact h.update (View.on_none hf) (View.on_none hf) (fun _ ht _ => ht) rfl nofun

def State.outstanding (s : State) (fd : Fd) (conn : Connection) : Nat :=
  s.world.queue.countP (fun job => job.fd = fd) +
    s.world.busy.countP (fun worker => worker.job.fd = fd) +
    s.world.outbox.countP (fun hb => hb.fd = fd) +
    if conn.writing ∧ conn.writeOff < conn.writeBuf.length then 1 else 0

theorem World.countP_tokens (w : World) (fd : Fd) :
    (w.tokens.map Prod.fst).count fd = w.queue.countP (fun job => job.fd = fd) +
      w.busy.countP (fun worker => worker.job.fd = fd) +
      w.outbox.countP (fun hb => hb.fd = fd) := by
  simp only [World.tokens, List.count, List.map_append, List.map_map, List.countP_append,
    List.countP_map]
  rfl

/-- The steps that lose no request: no early reuse, no rejected push, no foreign exception. -/
def KeepsTokens (cfg : Config) (s : State) (a : Act) : Prop :=
  AcceptsQuiet s a ∧ PushesFit cfg s a ∧ HandlersEnd s a

instance (s : State) (a : Act) : Decidable (KeepsTokens cfg s a) :=
  inferInstanceAs (Decidable (_ ∧ _))

theorem Assume.holds_of_keepsTokens {s : State} {a : Act} (h : KeepsTokens cfg s a) :
    Assume.Holds { fresh := true, noReject := true, noDie := true } cfg s a where
  fresh _ := h.1
  noReject _ := h.2.1
  noDie _ := h.2.2
  noEarlyClose := by simp
  clean := by simp
  polled := by simp

/-- **One outstanding token per dispatched connection, and none otherwise.** -/
theorem one_token_each {as : List Act} {s : State} {fd : Fd} {conn : Connection}
    (hrun : exec (step cfg) (.init cfg) as = some s)
    (hkeeps : Meets (step cfg) (KeepsTokens cfg) (.init cfg) as)
    (hfind : s.find fd = some conn) :
    s.outstanding fd conn = conn.dispatched.toNat ∧
      (conn.writing = true → conn.writeOff < conn.writeBuf.length) ∧
      ∀ t ∈ s.world.tokens, t.1 = fd → t.2.conn = conn.id := by
  have hinv : (NoClosing s.view ∧ Disciplined s.view) ∧ Served s.view :=
    run_invariant (A := { fresh := true, noReject := true, noDie := true })
      (I := fun v => (NoClosing v ∧ Disciplined v) ∧ Served v) ⟨⟨.init, .init⟩, .init⟩
      (fun _ _ h hmove => ⟨⟨h.1.1.move rfl hmove, h.1.2.move (.inl rfl) hmove⟩,
        h.2.move rfl h.1.1 h.1.2 hmove⟩) hrun
      (hkeeps.mono fun _ _ => Assume.holds_of_keepsTokens)
  obtain ⟨⟨-, hdisc⟩, hserved⟩ := hinv
  have hc : s.view.conns fd = some (conn.abs s.pool) := by simp [State.view, hfind]
  have hentry := hdisc.entry.on (View.on_none rfl) hc
  have hatt := hserved.on (View.on_none rfl) hc
  have hparked (hw : conn.writing = true) : conn.writeOff < conn.writeBuf.length :=
    hatt.parked hw (by simp)
  refine ⟨?_, hparked, fun t ht hfd => (hentry.token t ht hfd).1⟩
  have hcount : (s.world.tokens.map Prod.fst).count fd ≤ 1 :=
    List.nodup_iff_count_le_one.mp hdisc.nodup fd
  have hmem : 0 < (s.world.tokens.map Prod.fst).count fd ↔ ∃ t ∈ s.world.tokens, t.1 = fd := by
    rw [List.count_pos_iff, List.mem_map]
  rw [State.outstanding, ← World.countP_tokens]
  cases hwriting : conn.writing with
  | true =>
    -- the write is the token, and there is no other
    have hnone : (s.world.tokens.map Prod.fst).count fd = 0 := by
      by_contra hne
      obtain ⟨t, ht, hfd⟩ := hmem.mp (Nat.pos_of_ne_zero hne)
      have : conn.writing = false := (hentry.token t ht hfd).2.2.1
      simp [hwriting] at this
    have hdisp : conn.dispatched = true := (hentry.writing hwriting).1
    simp [hnone, hparked hwriting, hdisp]
  | false =>
    cases hdisp : conn.dispatched with
    | true =>
      have htok : ∃ t ∈ s.world.tokens, t.1 = fd := by
        rcases hatt.busy hdisp with htok | hw | hph
        · exact htok
        · exact absurd (hwriting.symm.trans hw) (by simp)
        · exact absurd rfl hph
      have := hmem.mpr htok
      simp only [Bool.false_eq_true, false_and, if_false, Bool.toNat_true]
      omega
    | false =>
      have hnone : (s.world.tokens.map Prod.fst).count fd = 0 := by
        by_contra hne
        obtain ⟨t, ht, hfd⟩ := hmem.mp (Nat.pos_of_ne_zero hne)
        have : conn.dispatched = true := (hentry.token t ht hfd).2.1
        simp [hdisp] at this
      simp [hnone]

/-- A request is in the handler. -/
theorem one_token_each_running :
    ∃ s ∈ exec (step .sample) (.init .sample) (acceptAt 5 ++ requestAt 5 ++ [.start]),
      ∃ conn ∈ s.find 5, conn.dispatched = true ∧ s.outstanding 5 conn = 1 := by
  have hends : ∃ s ∈ exec (step .sample) (.init .sample) (acceptAt 5 ++ requestAt 5 ++ [.start]),
      ∃ conn ∈ s.find 5, conn.dispatched = true := by decide +kernel
  obtain ⟨s, hrun, conn, hfind, hdisp⟩ := hends
  have := one_token_each hrun (by decide +kernel) hfind
  exact ⟨s, hrun, conn, hfind, hdisp, by simpa [hdisp] using this.1⟩

/-- The handler throws something that is no `std::exception`: the task ends without a handback, and
the connection stays dispatched with nobody working for it. -/
theorem lostTask_leaves_dispatched :
    ∃ s ∈ exec (step .sample) (.init .sample)
        (acceptAt 5 ++ requestAt 5 ++ [.start, .finish 0 .throwsOther]),
      ∃ conn ∈ s.find 5, conn.dispatched = true ∧ s.outstanding 5 conn = 0 := by
  decide +kernel

end Muses.Reactor
