import Muses.Http.Handler
import Muses.Http.Message
import Muses.Net.Framing
import Muses.Net.Provenance
import Muses.Net.Untouched

/-!
# Requests with bodies

The reactor cuts its input behind each empty line and hands the pieces to `handle_request`, which
decides about keep-alive and leaves bodies alone. A body that follows a request therefore stays in
the read buffer, and whether it is ever looked at depends on whether the connection goes on.

* `InTurn` — a request is dispatched only when the one before it was answered with keep-alive;
* `Combed` — a connection that waits for bytes has no complete request in its buffer.
-/

namespace Muses

open Muses.Core Function List
open World (subperm_of_perm_cons)

/-- The handler has answered the request and keeps the connection. -/
def World.Kept (w : World) (o : Origin) : Prop := ∃ r, w.results o = some r ∧ r.keepAlive = true

namespace Reactor

variable {cfg : Config} {A : Assume} {v v' : View} {w w' : World} {fd : Fd} {c c' : Conn}
  {ph ph' : Option Phase}

/-! ## One request after the other -/

/-- What holds of an entry: all requests of a connection that is not dispatched were answered with
keep-alive, and what is being written answers the last one. -/
structure Turns (w : World) (fd : Fd) (c : Conn) (ph : Option Phase) : Prop where
  idle : c.dispatched = false → ∀ i, i < (w.requests c.id).length → w.Kept ⟨c.id, i⟩
  writing : c.writing = true ∨ ph = some .write → c.origin.index + 1 = (w.requests c.id).length

/-- A request is dispatched only when those before it were answered and kept the connection. -/
structure InTurn (v : View) : Prop where
  kept : ∀ k i, i + 1 < (v.world.requests k).length → v.world.Kept ⟨k, i⟩
  last : ∀ t ∈ v.world.tokens, t.2.index + 1 = (v.world.requests t.2.conn).length
  home : ∀ t ∈ v.world.tokens, ∀ fd c, v.conns fd = some c → c.id = t.2.conn → fd = t.1
  entry : v.Each Turns

theorem InTurn.init : InTurn .init where
  kept := by simp [World.init]
  last := by simp [World.init, World.tokens]
  home := by simp
  entry := by simp [View.Each]

theorem Turns.mono (h : Turns w fd c ph) (hreq : w'.requests c.id = w.requests c.id)
    (hkept : ∀ o, w.Kept o → w'.Kept o) : Turns w' fd c ph where
  idle hdisp i hi := hkept _ (h.idle hdisp i (hreq ▸ hi))
  writing hw := by
    rw [hreq]
    exact h.writing hw

theorem InTurn.frame (h : InTurn v) (htok : v'.world.tokens ⊆ v.world.tokens)
    (hreq : v'.world.requests = v.world.requests)
    (hkept : ∀ o, v.world.Kept o → v'.world.Kept o) (hconns : v'.conns = v.conns)
    (hfocus : v'.focus = v.focus) : InTurn v' where
  kept k i hi := hkept _ (h.kept k i (hreq ▸ hi))
  last t ht := by
    rw [hreq]
    exact h.last t (htok ht)
  home t ht fd c hc := h.home t (htok ht) fd c (hconns ▸ hc)
  entry := h.entry.frame hconns hfocus fun _ _ _ hentry => hentry.mono (by rw [hreq]) hkept

theorem InTurn.update {e : Option Conn} (h : InTurn v) (hon : v.On fd ph) (hon' : v'.On fd ph')
    (htok : v'.world.tokens ⊆ v.world.tokens) (hreq : v'.world.requests = v.world.requests)
    (hres : v'.world.results = v.world.results)
    (hconns : v'.conns = update v.conns fd e)
    (hat : ∀ d, e = some d → (∃ c, v.conns fd = some c ∧ c.id = d.id) ∧ Turns v.world fd d ph') :
    InTurn v' := by
  have hkept (o : Origin) (ho : v.world.Kept o) : v'.world.Kept o := by
    rw [World.Kept, hres]
    exact ho
  refine ⟨fun k i hi => hkept _ (h.kept k i (hreq ▸ hi)), fun t ht => ?_, fun t ht g d hd hid => ?_,
    h.entry.update hon hon' hconns (fun _ _ _ _ hentry => hentry.mono (by rw [hreq]) hkept)
      fun d hd => (hat d hd).2.mono (by rw [hreq]) hkept⟩
  · rw [hreq]
    exact h.last t (htok ht)
  · rw [hconns] at hd
    by_cases hg : g = fd
    · subst hg
      obtain ⟨⟨c, hc, hcid⟩, -⟩ := hat d (by simpa using hd)
      exact h.home t (htok ht) g c hc (hcid.trans hid)
    · exact h.home t (htok ht) g d (by simpa [hg] using hd) hid

theorem Recorded.kept_update (hrec : Recorded v) {i : Nat} {job : Job}
    (hi : v.world.busy[i]? = some (.handling job)) {r : HandlerResult}
    (hres : w.results = update v.world.results job.origin (some r)) (o : Origin)
    (ho : v.world.Kept o) : w.Kept o := by
  obtain ⟨a, ha, hkeep⟩ := ho
  refine ⟨a, ?_, hkeep⟩
  have hnone := (hrec.job job (.inr (mem_of_getElem? hi))).2
  rw [hres, update_of_ne, ha]
  rintro rfl
  rw [hnone] at ha
  cases ha

theorem InTurn.dispatch (h : InTurn v) (hnum : Numbered v) (hdisc : Disciplined v) (n : Nat)
    (hf : v.focus = some (fd, .serve)) (hc : v.conns fd = some c) :
    InTurn (((v.setWorld (v.world.enqueue fd c.id (c.buf.take n))).setConn fd
      { c with dispatched := true, buf := c.buf.drop n }).look none) := by
  have hserve := (hdisc.entry.on (View.on_some hf) hc).serve
  have hturns := h.entry.on (View.on_some hf) hc
  have hperm := World.tokens_enqueue v.world fd c.id (c.buf.take n)
  -- nothing else is on its way for the connection
  have hother (t : Fd × Origin) (ht : t ∈ v.world.tokens) : t.2.conn ≠ c.id := fun heq =>
    hserve.1 t ht (h.home t ht fd c hc heq.symm).symm
  have hreq (k : ConnId) (hk : k ≠ c.id) :
      (v.world.enqueue fd c.id (c.buf.take n)).requests k = v.world.requests k := by
    simp [World.enqueue, hk]
  have hself : (v.world.enqueue fd c.id (c.buf.take n)).requests c.id
      = v.world.requests c.id ++ [c.buf.take n] := by
    simp [World.enqueue]
  refine ⟨fun k i hi => ?_, fun t ht => ?_, fun t ht g d hd hid => ?_, ?_⟩
  · simp only [View.look_world, View.setConn_world, View.setWorld_world] at hi
    by_cases hk : k = c.id
    · subst hk
      rw [hself, length_append, length_singleton] at hi
      exact hturns.idle hserve.2.2.1 i (by omega)
    · rw [hreq k hk] at hi
      exact h.kept k i hi
  · rcases mem_cons.mp (hperm.subset ht) with rfl | ht
    · simp only [View.look_world, View.setConn_world, View.setWorld_world, hself]
      simp
    · simp only [View.look_world, View.setConn_world, View.setWorld_world, hreq _ (hother t ht)]
      exact h.last t ht
  · have hold : ∃ e, v.conns g = some e ∧ e.id = d.id := by
      by_cases hg : g = fd
      · subst hg
        cases (update_self g _ v.conns).symm.trans hd
        exact ⟨c, hc, rfl⟩
      · exact ⟨d, by simpa [hg] using hd, rfl⟩
    obtain ⟨e, he, heid⟩ := hold
    rcases mem_cons.mp (hperm.subset ht) with rfl | ht
    · exact hnum.conns_inj g fd e c he hc (heid.trans hid)
    · exact h.home t ht g e he (heid.trans hid)
  · refine h.entry.update (View.on_some hf) (View.on_none rfl) rfl (fun g d hg hd hentry => ?_)
      fun d hd => ?_
    · exact hentry.mono (hreq _ (hnum.ne_of_ne hc hg hd)) fun _ ho => ho
    · cases hd
      exact ⟨by simp, by simp [hserve.2.2.2]⟩

structure Upright (v : View) : Prop where
  numbered : Numbered v
  conserved : Conserved v
  recorded : Recorded v
  disciplined : Disciplined v

theorem Upright.init : Upright .init := ⟨.init, .init, .init, .init⟩

theorem Upright.move (hA : A.fresh = true) (h : Upright v) (hmove : Move cfg A v v') :
    Upright v' where
  numbered := h.numbered.move hmove
  conserved := h.conserved.move h.numbered hmove
  recorded := h.recorded.move hmove
  disciplined := h.disciplined.move (.inl hA) hmove

theorem InTurn.answer (hup : Upright v) (h : InTurn v) {hb : WorkerHandback}
    {rest : List WorkerHandback} (hf : v.focus = none) (hout : v.world.outbox = hb :: rest)
    (hc : v.conns hb.fd = some c) :
    InTurn (((v.setWorld { v.world with outbox := rest }).setConn hb.fd
      { c with writeBuf := hb.response, writeOff := 0, keepAlive := hb.keepAlive,
               origin := hb.origin }).look (some (hb.fd, .write))) := by
  have hperm := World.tokens_pop hout
  have hmem : (hb.fd, hb.origin) ∈ v.world.tokens := hperm.symm.subset mem_cons_self
  have hentry := hup.disciplined.entry.on (View.on_none hf) hc
  obtain ⟨hid, hdisp, -⟩ := hentry.token _ hmem rfl
  refine h.update (View.on_none hf) (View.on_some rfl) (subperm_of_perm_cons hperm).subset
    rfl rfl rfl fun d hd => ?_
  cases hd
  refine ⟨⟨c, hc, rfl⟩, by simp [hdisp], fun _ => ?_⟩
  have hlast := h.last _ hmem
  rwa [show (hb.fd, hb.origin).2.conn = c.id from hid] at hlast

theorem InTurn.turn (hup : Upright v) (h : InTurn v) (ok : Bool) (hf : v.focus = some (fd, .write))
    (hc : v.conns fd = some c) (hkeep : c.keepAlive = true) :
    InTurn (((v.setWorld (v.world.arm fd .Readable ok)).setConn fd
      { c with dispatched := false, writing := false, writeBuf := [], writeOff := 0 }).look
        (some (fd, .serve))) := by
  have hturns := h.entry.on (View.on_some hf) hc
  have hphase : v.phase fd = some .write := (View.On.phase (View.on_some hf))
  have hresult := hup.recorded.response fd c hc (.inr hphase)
  have horigin := ((hup.disciplined.entry.on (View.on_some hf) hc).answering rfl).2
  have hlast := hturns.writing (.inr rfl)
  refine h.update (View.on_some hf) (View.on_some rfl) (by simp) (by simp) (by simp) rfl
    fun d hd => ?_
  cases hd
  refine ⟨⟨c, hc, rfl⟩, fun _ i hi => ?_, by simp⟩
  have hi : i < (v.world.requests c.id).length := hi
  by_cases hilast : i + 1 < (v.world.requests c.id).length
  · exact h.kept c.id i hilast
  · have heq : (⟨c.id, i⟩ : Origin) = c.origin := by
      ext
      · exact horigin.symm
      · show i = c.origin.index
        omega
    show v.world.Kept ⟨c.id, i⟩
    rw [heq]
    exact ⟨_, hresult, hkeep⟩

theorem InTurn.enroll (hup : Upright v) (h : InTurn v) (fd : Fd) (hf : v.focus = none) :
    InTurn ((v.setWorld ((v.world.opened fd).arm fd .Readable true)).setConn fd
      { id := v.world.accepted }) := by
  obtain ⟨hreq, -⟩ := hup.conserved.unused v.world.accepted (Nat.le_refl _)
  have hkept (o : Origin) (ho : v.world.Kept o) :
      ((v.world.opened fd).arm fd .Readable true).Kept o := by
    simpa [World.Kept, World.opened] using ho
  have hsame (k : ConnId) : ((v.world.opened fd).arm fd .Readable true).requests k
      = v.world.requests k := by
    simp [World.opened]
  refine ⟨fun k i hi => hkept _ (h.kept k i (hsame k ▸ hi)), fun t ht => ?_,
    fun t ht g d hd hid => ?_, ?_⟩
  · simpa [World.opened] using h.last t (by simpa using ht)
  · have htok : t ∈ v.world.tokens := by simpa using ht
    by_cases hg : g = fd
    · subst hg
      cases (update_self g _ v.conns).symm.trans hd
      have hlt := hup.recorded.index_lt t htok
      rw [← hid, hreq] at hlt
      exact absurd hlt (Nat.not_lt_zero _)
    · exact h.home t htok g d (by simpa [hg] using hd) hid
  · refine h.entry.update (View.on_none hf) (View.on_none hf) rfl
      (fun g d _ _ hentry => hentry.mono (hsame _) hkept) fun d hd => ?_
    cases hd
    refine ⟨fun _ i hi => ?_, by simp⟩
    rw [View.setConn_world, View.setWorld_world, hsame, hreq] at hi
    exact absurd hi (Nat.not_lt_zero _)

theorem InTurn.move (hup : Upright v) (h : InTurn v) (hmove : Move cfg A v v') : InTurn v' := by
  cases hmove with
  | env | goto | poll | stopOutbox | skip | refuse =>
    exact h.frame (List.Subset.refl _) rfl (fun _ ho => ho) rfl rfl
  | arrive fd bs harr =>
    obtain ⟨c, -, rfl⟩ := World.arrive_eq harr
    exact h.frame (List.Subset.refl _) rfl (fun _ ho => ho) rfl rfl
  | hangup fd hhang =>
    obtain ⟨c, -, rfl⟩ := World.hangup_eq hhang
    exact h.frame (List.Subset.refl _) rfl (fun _ ho => ho) rfl rfl
  | start job rest hq =>
    exact h.frame (World.tokens_start hq).subset rfl (fun _ ho => ho) rfl rfl
  | die i job hi =>
    exact h.frame (subperm_of_perm_cons (World.tokens_eraseIdx hi)).subset rfl (fun _ ho => ho)
      rfl rfl
  | closeRejected i job hi =>
    exact h.frame (subperm_of_perm_cons (World.tokens_eraseIdx hi)).subset rfl (fun _ ho => ho)
      rfl rfl
  | handback i job r hi =>
    exact h.frame (World.tokens_handback hi r).subset rfl (hup.recorded.kept_update hi rfl) rfl rfl
  | reject i job r hi =>
    exact h.frame (List.Perm.of_eq (World.tokens_set (.closing job) hi rfl)).subset rfl
      (hup.recorded.kept_update hi rfl) rfl rfl
  | discard hb rest hf hout =>
    exact h.frame (subperm_of_perm_cons (World.tokens_pop hout)).subset rfl (fun _ ho => ho) rfl rfl
  | take e evs c ph hf hpc hc hph =>
    refine h.update (View.on_none hf) (View.on_some rfl) (List.Subset.refl _) rfl rfl
      (v.same_entry e.fd) fun d hd => ⟨⟨d, hd, rfl⟩, ?_⟩
    cases hc.symm.trans hd
    have hturns := h.entry.on (View.on_none hf) hc
    refine ⟨hturns.idle, fun hw => hturns.writing (.inl ?_)⟩
    rcases hw with hw | hw
    · exact hw
    · cases hw
      exact hph
  | deny hb rest c hf hout hc =>
    refine h.update (View.on_none hf) (View.on_some rfl)
      (subperm_of_perm_cons (World.tokens_pop hout)).subset rfl rfl (v.same_entry hb.fd)
      fun d hd => ⟨⟨d, hd, rfl⟩, ?_⟩
    cases hc.symm.trans hd
    have hturns := h.entry.on (View.on_none hf) hc
    exact ⟨hturns.idle, fun hw => hturns.writing (.inl (by simpa using hw))⟩
  | answer hb rest c hf hout hc => exact h.answer hup hf hout hc
  | consume fd c bs hf hc hread =>
    have hwork := World.sysRead_sameWork hread
    refine h.update (View.on_some hf) (View.on_some hf) (fun t ht => ?_) hwork.requests
      hwork.results rfl fun d hd => ?_
    · rwa [← hwork.tokens]
    · cases hd
      have hturns := h.entry.on (View.on_some hf) hc
      exact ⟨⟨c, hc, rfl⟩, hturns.idle, hturns.writing⟩
  | emit fd c n hf hc hwrite =>
    obtain ⟨k, -, -, -, rfl⟩ := World.sysWrite_wrote hwrite
    refine h.update (View.on_some hf) (View.on_some hf) (List.Subset.refl _) rfl rfl rfl
      fun d hd => ?_
    cases hd
    have hturns := h.entry.on (View.on_some hf) hc
    exact ⟨⟨c, hc, rfl⟩, hturns.idle, hturns.writing⟩
  | park fd c ok hf hc =>
    refine h.update (View.on_some hf) (View.on_none rfl) (by simp) (by simp) (by simp) rfl
      fun d hd => ?_
    cases hd
    have hturns := h.entry.on (View.on_some hf) hc
    exact ⟨⟨c, hc, rfl⟩, hturns.idle, fun _ => hturns.writing (.inr rfl)⟩
  | turn fd c ok hf hc hoff hkeep => exact h.turn hup ok hf hc hkeep
  | rest fd c k hf hc =>
    refine h.update (View.on_some hf) (View.on_none rfl) (List.Subset.refl _) rfl rfl
      (v.same_entry fd) fun d hd => ⟨⟨d, hd, rfl⟩, ?_⟩
    cases hc.symm.trans hd
    have hturns := h.entry.on (View.on_some hf) hc
    exact ⟨hturns.idle, fun hw => hturns.writing (.inl (by simpa using hw))⟩
  | dispatch fd c n hf hc => exact h.dispatch hup.numbered hup.disciplined n hf hc
  | close fd c hf hc =>
    obtain ⟨ph, hon⟩ := View.on_of_close hf
    exact h.update hon (View.on_none rfl) (List.Subset.refl _) rfl rfl rfl nofun
  | enroll fd hfd hlisten hf => exact h.enroll hup fd hf
  | clash fd c hfd hlisten hf =>
    exact h.frame (by simp) (by simp [World.opened]) (by simp [World.Kept, World.opened]) rfl rfl
  | misfit fd hfd hf =>
    exact h.update (View.on_none hf) (View.on_none hf) (List.Subset.refl _) rfl rfl rfl nofun

/-! ## Nothing is left lying -/

/-- No complete request waits in the buffer of an idle connection. -/
def Combed (v : View) : Prop :=
  v.Each fun _ _ c ph => c.dispatched = false → ph = none → Search.find terminator c.buf = none

theorem Combed.init : Combed .init := by simp [Combed, View.Each]

theorem Combed.frame (h : Combed v) (hconns : v'.conns = v.conns) (hfocus : v'.focus = v.focus) :
    Combed v' :=
  View.Each.frame h hconns hfocus fun _ _ _ hcombed => hcombed

theorem Combed.update {e : Option Conn} (h : Combed v) (hon : v.On fd ph) (hon' : v'.On fd ph')
    (hconns : v'.conns = update v.conns fd e)
    (hat : ∀ d, e = some d → d.dispatched = false → ph' = none →
      Search.find terminator d.buf = none) : Combed v' :=
  View.Each.update h hon hon' hconns (fun _ _ _ _ hcombed => hcombed) hat

theorem Combed.move (hdisc : Disciplined v) (h : Combed v) (hmove : Move cfg A v v') :
    Combed v' := by
  cases hmove with
  | take e evs c ph hf =>
    exact h.update (View.on_none hf) (View.on_some rfl) (v.same_entry e.fd) (by simp)
  | deny hb rest c hf =>
    exact h.update (View.on_none hf) (View.on_some rfl) (v.same_entry hb.fd) (by simp)
  | answer hb rest c hf => exact h.update (View.on_none hf) (View.on_some rfl) rfl (by simp)
  | consume fd c bs hf | emit fd c n hf =>
    exact h.update (View.on_some hf) (View.on_some hf) rfl (by simp)
  | park fd c ok hf hc =>
    have hdisp := ((hdisc.entry.on (View.on_some hf) hc).answering rfl).1
    exact h.update (View.on_some hf) (View.on_none rfl) rfl (by simp [hdisp])
  | turn fd c ok hf => exact h.update (View.on_some hf) (View.on_some rfl) rfl (by simp)
  | rest fd c k hf hc hnone =>
    refine h.update (View.on_some hf) (View.on_none rfl) (v.same_entry fd) fun d hd _ _ => ?_
    cases hc.symm.trans hd
    exact hnone
  | dispatch fd c n hf => exact h.update (View.on_some hf) (View.on_none rfl) rfl (by simp)
  | close fd c hf =>
    obtain ⟨ph, hon⟩ := View.on_of_close hf
    exact h.update hon (View.on_none rfl) rfl nofun
  | enroll fd hfd hlisten hf =>
    refine h.update (View.on_none hf) (View.on_none hf) rfl fun d hd _ _ => ?_
    cases hd
    rfl
  | misfit fd hfd hf => exact h.update (View.on_none hf) (View.on_none hf) rfl nofun
  | _ => exact h.frame rfl rfl

/-! ## The handler -/

/-- How a call of `handle_request` ends for the worker that makes it. An access that has no meaning
in C++ ends in no way. -/
def outcome : HttpContext.Outcome → Option World.HandlerOutcome
  | .ok r => some (.returns ⟨r.response, r.keepAlive⟩)
  | .error .outOfRange => some .throwsStd
  | .error .noMemory => some .throwsStd
  | .error .undefined => none

/-- The handler is `handle_request` over the site. -/
def AnswersFrom (alloc : NodeAllocator) (site : HttpContext.Site) (s : State) : Act → Prop
  | .finish i o =>
      match s.world.busy[i]? with
      | some (.handling job) =>
          outcome ((HttpContext.handleRequest alloc site.fs site.cache job.request).map Prod.snd)
            = some o
      | _ => True
  | _ => True

instance (alloc : NodeAllocator) (site : HttpContext.Site) (s : State) (a : Act) :
    Decidable (AnswersFrom alloc site s a) := by
  unfold AnswersFrom
  induction a using Act.casesOn with
  | finish i o =>
    dsimp only
    split <;> infer_instance
  | _ => infer_instance

/-- **The handler is `handle_request`**, with whatever files and cache there are at that moment. -/
def ServesHttp (s : State) (a : Act) : Prop := ∃ alloc site, AnswersFrom alloc site s a

theorem results_untouched : Untouched World.results where
  sysRead h := by
    unfold World.sysRead at h
    split at h <;> try split at h
    all_goals cases h
    all_goals rfl
  sysWrite h := by
    unfold World.sysWrite at h
    split at h <;> try split at h
    all_goals cases h
    all_goals rfl
  close _ _ _ := rfl
  arm _ _ _ _ := World.arm_results _ _ _ _
  enqueue _ _ _ _ := rfl

section Results

variable {s s' : State}

theorem results_acceptRound {now accepted : Nat} {evs : List PollEvent} {r : AcceptResult}
    (h : s.acceptRound cfg now accepted evs r = some s') : s'.world.results = s.world.results := by
  unfold State.acceptRound at h
  split at h
  · cases h
  · cases r with
    | eagain =>
      simp only at h
      split at h <;> cases h
      rfl
    | eintr | error =>
      cases h
      rfl
    | conn fd ip addOk =>
      simp only at h
      split at h
      · obtain ⟨bl, win, hgate⟩ := ipGate_same cfg (({ s with world := s.world.opened fd } :
          State).setPc (.accepting now (accepted + 1) evs)) ip now
        rw [hgate] at h
        split at h
        · cases h
          rfl
        · exact (results_untouched.register h).1
      · cases h

theorem results_loopStep {a : Act} (h : loopStep cfg s s.world.pc a = some s') :
    s'.world.results = s.world.results := by
  generalize s.world.pc = pc at h
  unfold loopStep at h
  split at h
  case h_1 | h_2 | h_3 | h_4 | h_9 =>
    split at h <;> cases h
    rfl
  case h_5 e evs io =>
    split at h
    · cases h
    · have hevent : Spared World.results _ s' := .onClientEvent results_untouched h
      exact hevent.part
  case h_6 io =>
    split at h
    · have hdrain : Spared World.results _ s' := .drainHandback results_untouched h
      exact hdrain.part
    · cases h
  case h_7 =>
    cases h
    rfl
  case h_8 => exact results_acceptRound h
  case h_10 =>
    obtain ⟨s₁, hsweep, rfl⟩ := Option.map_eq_some_iff.mp h
    exact ((Spared.sweepIdleConnections results_untouched hsweep).trans (.sweepIpRate cfg s₁)).part
  case h_11 =>
    obtain ⟨p', -, rfl⟩ := Option.map_eq_some_iff.mp h
    exact results_untouched.closeEntries _ _
  case h_12 => cases h

theorem kept_finish {i n : Nat} {o : World.HandlerOutcome} {w : World} (hrec : Recorded s.view)
    (hserves : ServesHttp s (.finish i o)) (h : s.world.finish n i o = some w) {origin : Origin}
    (hkept : w.Kept origin) :
    s.world.Kept origin ∨ ∃ request, (s.world.requests origin.conn)[origin.index]? = some request ∧
      (HttpContext.parseRequest request).wantsKeepAlive = true := by
  obtain ⟨alloc, site, hanswer⟩ := hserves
  unfold World.finish at h
  simp only [AnswersFrom] at hanswer
  split at h
  case h_2 => cases h
  case h_1 job hi =>
    simp only [hi] at hanswer
    split at h
    case h_1 =>
      cases h
      exact .inl hkept
    case h_2 r hr =>
      obtain ⟨a, ha, hkeep⟩ := hkept
      have hresults : w.results = update s.world.results job.origin (some r) := by
        simp only at h
        split at h <;> cases h <;> rfl
      rw [hresults] at ha
      by_cases heq : origin = job.origin
      · subst heq
        rw [update_self] at ha
        cases ha
        refine .inr ⟨job.request, (hrec.job job (.inr (mem_of_getElem? hi))).1, ?_⟩
        -- the result is that of the handler, or that of an exception, which keeps nothing
        cases hcall : HttpContext.handleRequest alloc site.fs site.cache job.request with
        | ok x =>
          rw [hcall] at hanswer
          cases hanswer
          cases hr
          exact HttpContext.wantsKeepAlive_of_handleWith hcall hkeep
        | error e =>
          rw [hcall] at hanswer
          cases e with
          | outOfRange | noMemory =>
            cases hanswer
            cases hr
            cases hkeep
          | undefined => cases hanswer
      · rw [update_of_ne heq] at ha
        exact .inl ⟨a, ha, hkeep⟩

theorem kept_step {a : Act} (hrec : Recorded s.view) (hserves : ServesHttp s a)
    (hstep : step cfg s a = some s') {origin : Origin} (hkept : s'.world.Kept origin) :
    s.world.Kept origin ∨ ∃ request, (s.world.requests origin.conn)[origin.index]? = some request ∧
      (HttpContext.parseRequest request).wantsKeepAlive = true := by
  have hsame (h : s'.world.results = s.world.results) : s.world.Kept origin := by
    rw [World.Kept, ← h]
    exact hkept
  unfold step at hstep
  split at hstep
  case h_1 | h_2 | h_8 =>
    cases hstep
    exact .inl hkept
  case h_3 fd bs =>
    obtain ⟨w, hw, rfl⟩ := Option.map_eq_some_iff.mp hstep
    obtain ⟨c, -, rfl⟩ := World.arrive_eq hw
    exact .inl hkept
  case h_4 fd =>
    obtain ⟨w, hw, rfl⟩ := Option.map_eq_some_iff.mp hstep
    obtain ⟨c, -, rfl⟩ := World.hangup_eq hw
    exact .inl hkept
  case h_5 =>
    obtain ⟨w, hw, rfl⟩ := Option.map_eq_some_iff.mp hstep
    unfold World.start at hw
    split at hw
    · split at hw <;> cases hw
      exact .inl hkept
    · cases hw
  case h_6 i o =>
    obtain ⟨w, hw, rfl⟩ := Option.map_eq_some_iff.mp hstep
    exact kept_finish hrec hserves hw hkept
  case h_7 i =>
    obtain ⟨w, hw, rfl⟩ := Option.map_eq_some_iff.mp hstep
    unfold World.closeRejected at hw
    split at hw <;> cases hw
    exact .inl hkept
  case h_9 => exact .inl (hsame (results_loopStep hstep))

end Results

/-- A connection is kept only if the request asked for it. -/
def Asked (w : World) : Prop :=
  ∀ o, w.Kept o → ∃ request, (w.requests o.conn)[o.index]? = some request ∧
    (HttpContext.parseRequest request).wantsKeepAlive = true

theorem Moves.requests_prefix (h : Moves cfg A v v') (k : ConnId) :
    v.world.requests k <+: v'.world.requests k := by
  refine h.invariant (I := fun u => v.world.requests k <+: u.world.requests k)
    (fun u u' hu hmove => ?_) (prefix_refl _)
  rcases hmove.requests_eq with heq | ⟨j, r, -, heq⟩
  · rwa [heq]
  · rw [heq]
    by_cases hj : k = j
    · subst hj
      rw [update_self]
      exact hu.trans (prefix_append _ _)
    · rwa [update_of_ne hj]

theorem run_asked {as : List Act} {s : State} (hrun : exec (step cfg) (.init cfg) as = some s)
    (hserves : Meets (step cfg) ServesHttp (.init cfg) as) : Asked s.world := by
  have hinv : Wf s ∧ Recorded s.view ∧ Asked s.world := by
    refine exec_invariant_of_meets (I := fun s => Wf s ∧ Recorded s.view ∧ Asked s.world)
      (fun s a s' ⟨hwf, hrec, hasked⟩ hserves hstep => ?_)
      ⟨init_wf cfg, .init, by simp [Asked, World.Kept, State.init, World.init]⟩ hserves hrun
    obtain ⟨hwf', hmoves⟩ := step_moves (A := {}) hwf hstep (by constructor <;> simp)
    refine ⟨hwf', hmoves.invariant (fun _ _ h hmove => h.move hmove) hrec, fun o ho => ?_⟩
    have hold : ∃ request, (s.world.requests o.conn)[o.index]? = some request ∧
        (HttpContext.parseRequest request).wantsKeepAlive = true :=
      (kept_step hrec hserves hstep ho).elim (hasked o) id
    obtain ⟨request, hrequest, hwants⟩ := hold
    have hpre := hmoves.requests_prefix o.conn
    obtain ⟨hi, hget⟩ := List.getElem?_eq_some_iff.mp hrequest
    exact ⟨request, hget ▸ List.prefix_iff_getElem?.mp hpre _ hi, hwants⟩
  exact hinv.2.2

/-! ## Heads and bodies -/

section Framing

variable {wants : List UInt8 → Prop} {pieces : List (List UInt8)} {reqs : List Http.Request}

/-- A stream of requests is cut behind its empty lines. The pieces are the heads of the requests, as
long as a piece that is followed by another one belongs to a request without a body. -/
theorem pieces_prefix_heads (hpieces : ∀ piece ∈ pieces, Search.IsFrame terminator piece)
    (hpre : pieces.flatten <+: (reqs.map Http.Request.text).flatten)
    (hwants : ∀ i piece, i + 1 < pieces.length → pieces[i]? = some piece → wants piece)
    (hbody : ∀ r ∈ reqs, wants r.head.text → r.body = []) :
    pieces <+: reqs.map fun r => r.head.text := by
  induction pieces generalizing reqs with
  | nil => exact nil_prefix
  | cons piece pieces ih =>
    have hpiece := hpieces piece mem_cons_self
    cases reqs with
    | nil =>
      have hnil : piece = [] := by
        have := prefix_nil.mp hpre
        simp only [flatten_cons, append_eq_nil_iff] at this
        exact this.1
      subst hnil
      exact absurd hpiece (by decide)
    | cons r reqs =>
      simp only [map_cons, flatten_cons, Http.Request.text, append_assoc] at hpre
      obtain rfl : piece = r.head.text :=
        hpiece.unique r.head.text_isFrame ((prefix_append _ _).trans hpre)
          (prefix_append _ _)
      rw [prefix_append_right_inj] at hpre
      refine cons_prefix_cons.mpr ⟨rfl, ?_⟩
      cases hrest : pieces with
      | nil => exact nil_prefix
      | cons next rest =>
        have hnone := hbody r mem_cons_self (hwants 0 _ (by simp [hrest]) rfl)
        rw [hnone, nil_append] at hpre
        rw [← hrest]
        exact ih (fun piece hp => hpieces piece (mem_cons_of_mem _ hp)) hpre
          (fun i piece hi hget => hwants (i + 1) piece (by simpa using hi) (by simpa using hget))
          fun r hr => hbody r (mem_cons_of_mem _ hr)

/-- If what is left holds no empty line and all pieces belong to requests without a body, no whole
request is left. -/
theorem length_le_of_combed {buf : List UInt8} {n : Nat}
    (hpieces : pieces <+: reqs.map fun r => r.head.text)
    (hbuf : Search.find terminator buf = none)
    (hpre : ((reqs.take n).map Http.Request.text).flatten <+: pieces.flatten ++ buf)
    (hwants : ∀ piece ∈ pieces, wants piece) (hbody : ∀ r ∈ reqs, wants r.head.text → r.body = [])
    (hn : n ≤ reqs.length) : n ≤ pieces.length := by
  induction pieces generalizing reqs n with
  | nil =>
    cases reqs with
    | nil => exact hn
    | cons r reqs =>
      cases n with
      | zero => exact Nat.le_refl _
      | succ n =>
        simp only [take_succ_cons, map_cons, flatten_cons, Http.Request.text,
          append_assoc, flatten_nil, nil_append] at hpre
        obtain ⟨i, hi, -⟩ := r.head.text_isFrame
        obtain ⟨rest, rfl⟩ := (prefix_append _ _).trans hpre
        have hfound := Search.find_append rest hi
        exact absurd (hfound.symm.trans hbuf) (by simp)
  | cons piece pieces ih =>
    cases n with
    | zero => exact Nat.zero_le _
    | succ n =>
      cases reqs with
      | nil => exact absurd hn (by simp)
      | cons r reqs =>
        obtain ⟨rfl, htail⟩ := cons_prefix_cons.mp hpieces
        have hnone := hbody r mem_cons_self (hwants _ mem_cons_self)
        simp only [take_succ_cons, map_cons, flatten_cons, Http.Request.text, hnone,
          append_nil, append_assoc, prefix_append_right_inj] at hpre
        exact Nat.succ_le_succ (ih htail hpre
          (fun piece hp => hwants piece (mem_cons_of_mem _ hp))
          (fun r hr => hbody r (mem_cons_of_mem _ hr)) (Nat.le_of_succ_le_succ hn))

end Framing

theorem Assume.holds_of_cleanQuiet {s : State} {a : Act} (hclean : ReadsClean s a)
    (hquiet : AcceptsQuiet s a) : Assume.Holds { clean := true, fresh := true } cfg s a where
  fresh _ := hquiet
  noReject := by simp
  noDie := by simp
  noEarlyClose := by simp
  clean _ := hclean
  polled := by simp

/-- **Bodies stay apart.** The bytes of a connection are those of well-formed requests, one behind
the other, and the handler is `handle_request`. If a request with a body asks for the connection to
be closed, then the handler is called for the requests in their order, once for each, and with the
head of each; and a connection that waits for bytes has called it for every request that it read. -/
theorem bodies_stay_apart {as : List Act} {s : State}
    (hrun : exec (step cfg) (.init cfg) as = some s)
    (hclean : Meets (step cfg) ReadsClean (.init cfg) as)
    (hquiet : Meets (step cfg) AcceptsQuiet (.init cfg) as)
    (hserves : Meets (step cfg) ServesHttp (.init cfg) as) {k : ConnId} {reqs : List Http.Request}
    (hbytes : s.world.received k <+: (reqs.map Http.Request.text).flatten)
    (hclose : ∀ r ∈ reqs, r.body ≠ [] →
      (HttpContext.parseRequest r.head.text).wantsKeepAlive = false) :
    s.world.requests k <+: reqs.map (fun r => r.head.text) ∧
      ∀ fd conn, s.find fd = some conn → conn.id = k → conn.dispatched = false →
        ∀ n ≤ reqs.length, ((reqs.take n).map Http.Request.text).flatten <+: s.world.received k →
          n ≤ (s.world.requests k).length := by
  have hmeets :
      Meets (step cfg) (Assume.Holds { clean := true, fresh := true } cfg) (.init cfg) as :=
    (hclean.and hquiet).mono fun _ _ h => Assume.holds_of_cleanQuiet h.1 h.2
  have hinv : Upright s.view ∧ InTurn s.view ∧ Combed s.view ∧ Framed s.view :=
    run_invariant (I := fun v => Upright v ∧ InTurn v ∧ Combed v ∧ Framed v)
      ⟨.init, .init, .init, by simp [Framed, World.init]⟩
      (fun _ _ ⟨hup, hturn, hcombed, hframed⟩ hmove => ⟨hup.move rfl hmove, hturn.move hup hmove,
        hcombed.move hup.disciplined hmove, hframed.move rfl hmove⟩) hrun hmeets
  obtain ⟨hup, hturn, hcombed, hframed⟩ := hinv
  have hasked := run_asked hrun hserves
  have hkept (i : Nat) (piece : List UInt8) (hget : (s.world.requests k)[i]? = some piece)
      (hi : s.world.Kept ⟨k, i⟩) : (HttpContext.parseRequest piece).wantsKeepAlive = true := by
    obtain ⟨request, hrequest, hwants⟩ := hasked _ hi
    cases hget.symm.trans hrequest
    exact hwants
  have hbody (r : Http.Request) (hr : r ∈ reqs)
      (hwants : (HttpContext.parseRequest r.head.text).wantsKeepAlive = true) : r.body = [] := by
    by_contra hne
    rw [hclose r hr hne] at hwants
    cases hwants
  have hpieces : s.world.requests k <+: reqs.map fun r => r.head.text :=
    pieces_prefix_heads (hframed k) ((hup.conserved.dispatched k).trans hbytes)
      (fun i piece hi hget => hkept i piece hget (hturn.kept k i hi)) hbody
  refine ⟨hpieces, fun fd conn hfind hid hdisp n hn hread => ?_⟩
  subst hid
  have hc : s.view.conns fd = some (conn.abs s.pool) := by simp [State.view, hfind]
  have hconserved := hup.conserved.entry fd _ hc
  have hidle := (hturn.entry.on (View.on_none rfl) hc).idle hdisp
  have hnone := hcombed.on (View.on_none rfl) hc hdisp rfl
  have hall (piece : List UInt8) (hp : piece ∈ s.world.requests conn.id) :
      (HttpContext.parseRequest piece).wantsKeepAlive = true := by
    obtain ⟨i, hi, hget⟩ := List.getElem_of_mem hp
    exact hkept i piece (List.getElem?_eq_some_iff.mpr ⟨hi, hget⟩) (hidle i hi)
  exact length_le_of_combed hpieces hnone (hconserved ▸ hread) hall hbody hn

/-! ## One request with a body -/

section Upload

open Text HttpContext Http

set_option maxRecDepth 100000 in
def upload (keep : Bool) : Http.Request where
  head :=
    { first := ascii "POST"
      second := ascii "/"
      third := ascii "HTTP/1.1"
      fields :=
        [⟨contentLength, ascii " 18", by decide, by decide, by decide⟩,
          ⟨ascii "Host", ascii " a", by decide, by decide, by decide⟩,
          ⟨ascii "Connection", if keep then ascii " keep-alive" else ascii " close", by decide,
            by decide, by cases keep <;> decide⟩]
      first_word := by decide
      second_word := by decide
      third_line := by decide }
  body := ascii "GET / HTTP/1.1" ++ blankLine
  version := rfl
  sized := by
    refine .inr ⟨⟨_, ⟨[], _, rfl, rfl, by cases keep <;> decide⟩, ?_⟩, by decide⟩
    exact ⟨ascii " ", ascii "18", [], by decide, by decide, by decide, by decide, by decide,
      by decide⟩

def uploadRun (keep : Bool) : List Act :=
  acceptAt 5 ++ readAt 5 (upload keep).text [.data (upload keep).text, .eagain] ++
    [.start, .finish 0 (.returns ⟨notAllowed keep none, keep⟩), .poll [],
      .drain { writes := [.wrote (notAllowed keep none).length], reads := [.eagain] }]

theorem bodies_stay_apart_upload :
    ∃ s ∈ exec (step .sample) (.init .sample) (uploadRun false),
      s.world.received 0 = (upload false).text ∧
        s.world.requests 0 <+: [(upload false).head.text] := by
  have hends : ∃ s ∈ exec (step .sample) (.init .sample) (uploadRun false),
      s.world.received 0 = (upload false).text := by decide +kernel
  obtain ⟨s, hrun, hreceived⟩ := hends
  have hanswers : Meets (step .sample) (AnswersFrom .above (.start (.single none))) (.init .sample)
      (uploadRun false) := by decide +kernel
  have hbytes : s.world.received 0 <+: ([upload false].map Http.Request.text).flatten := by
    simp [hreceived]
  have hclose : ∀ r ∈ [upload false], r.body ≠ [] →
      (parseRequest r.head.text).wantsKeepAlive = false := by decide +kernel
  have happart := bodies_stay_apart hrun (by decide +kernel) (by decide +kernel)
    (hanswers.mono fun _ _ h => ⟨_, _, h⟩) hbytes hclose
  exact ⟨s, hrun, hreceived, by simpa using happart.1⟩

/-- The client keeps the connection, and so does the answer: the handler is called again, with the
body of the one request that was sent. -/
theorem body_taken_for_request :
    Meets (step .sample) ReadsClean (.init .sample) (uploadRun true) ∧
      Meets (step .sample) AcceptsQuiet (.init .sample) (uploadRun true) ∧
      Meets (step .sample) (AnswersFrom .above (.start (.single none))) (.init .sample)
        (uploadRun true) ∧
      ∃ s ∈ exec (step .sample) (.init .sample) (uploadRun true),
        s.world.received 0 = (upload true).text ∧
          s.world.results ⟨0, 0⟩ = some ⟨notAllowed true none, true⟩ ∧
          s.world.requests 0 = [(upload true).head.text, (upload true).body] := by
  decide +kernel

end Upload

end Reactor

end Muses
