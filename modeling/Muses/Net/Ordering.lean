import Muses.Net.Provenance
import Muses.Net.Framing
import Muses.Net.Descriptors

/-!
# Responses in order

The subject is a run in which no connection is closed between the dispatch of a request and the
draining of its handback. Every token then finds its entry (`Anchored`), and each connection goes
through three stages: all its answers are written, one is owed, one is being written (`Stage`).
-/

namespace Muses

open Muses.Core Function List

namespace World

def written (w : World) (k : ConnId) : List UInt8 := ((w.socks k).tx.map Prod.snd).flatten

def answer (w : World) (k : ConnId) (i : Nat) : List UInt8 :=
  ((w.results ⟨k, i⟩).map HandlerResult.response).getD []

def answers (w : World) (k : ConnId) (m : Nat) : List UInt8 :=
  ((List.range m).map (w.answer k)).flatten

variable {w w' : World} {k : ConnId} {m : Nat}

@[simp] theorem answers_zero : w.answers k 0 = [] := rfl

theorem answers_succ (w : World) (k : ConnId) (m : Nat) :
    w.answers k (m + 1) = w.answers k m ++ w.answer k m := by
  simp [answers, range_succ]

theorem answer_of_some {i : Nat} {r : HandlerResult} (h : w.results ⟨k, i⟩ = some r) :
    w.answer k i = r.response := by
  simp [answer, h]

theorem answer_of_none {i : Nat} (h : w.results ⟨k, i⟩ = none) : w.answer k i = [] := by
  simp [answer, h]

theorem answers_congr (h : ∀ i, i < m → w'.results ⟨k, i⟩ = w.results ⟨k, i⟩) :
    w'.answers k m = w.answers k m := by
  unfold answers
  congr 1
  refine map_congr_left fun i hi => ?_
  simp [answer, h i (mem_range.mp hi)]

end World

namespace Reactor

variable {cfg : Config} {A : Assume} {v v' : View}

/-! ## Tokens keep their entries -/

/-- A request on its way has its entry. -/
def Anchored (v : View) : Prop := ∀ t ∈ v.world.tokens, v.conns t.1 ≠ none

theorem Anchored.init : Anchored .init := by simp [Anchored, World.init, World.tokens]

theorem Anchored.quiet (h : Anchored v) (hdisc : Disciplined v) (fd : Fd)
    (hfd : v.world.fds fd = none) : v.world.Quiet fd := by
  rintro t ht rfl
  obtain ⟨c, hc⟩ := Option.ne_none_iff_exists'.mp (h t ht)
  rcases (hdisc.entry t.1 c hc).owner with hown | ⟨-, -, -, hquiet⟩
  · simp [hfd] at hown
  · exact hquiet t ht rfl

theorem Anchored.frame (h : Anchored v) (htok : v'.world.tokens ⊆ v.world.tokens)
    (hconns : ∀ fd, v.conns fd ≠ none → v'.conns fd ≠ none) : Anchored v' :=
  fun t ht => hconns t.1 (h t (htok ht))

variable {fd : Fd} {c : Conn} {i : Nat} {r : HandlerResult}

theorem update_ne_none {conns : Fd → Option Conn} (c : Conn) (g : Fd) (hg : conns g ≠ none) :
    update conns fd (some c) g ≠ none := by
  by_cases hgfd : g = fd
  · subst hgfd; simp
  · rwa [update_of_ne hgfd]

theorem Anchored.move (hA : A.noEarlyClose = true) (hdisc : Disciplined v) (h : Anchored v)
    (hmove : Move cfg A v v') : Anchored v' := by
  have hkeep (fd : Fd) (hfd : v.conns fd ≠ none) : v.conns fd ≠ none := hfd
  cases hmove with
  | env | goto | poll | stopOutbox | skip | take | refuse | rest =>
    exact h.frame (List.Subset.refl _) hkeep
  | arrive fd bs harr =>
    obtain ⟨c, -, rfl⟩ := World.arrive_eq harr
    exact h.frame (List.Subset.refl _) hkeep
  | hangup fd hhang =>
    obtain ⟨c, -, rfl⟩ := World.hangup_eq hhang
    exact h.frame (List.Subset.refl _) hkeep
  | start job rest hq => exact h.frame (World.tokens_start hq).subset hkeep
  | die i job hi =>
    exact h.frame (World.subperm_of_perm_cons (World.tokens_eraseIdx hi)).subset hkeep
  | handback i job r hi => exact h.frame (World.tokens_handback hi r).subset hkeep
  | reject i job r hi =>
    exact h.frame (List.Perm.of_eq (World.tokens_set (.closing job) hi rfl)).subset hkeep
  | closeRejected i job hi hf hearly => simp [hA] at hearly
  | discard hb rest hf hout =>
    exact h.frame (World.subperm_of_perm_cons (World.tokens_pop hout)).subset hkeep
  | deny hb rest c hf hout =>
    exact h.frame (World.subperm_of_perm_cons (World.tokens_pop hout)).subset hkeep
  | answer hb rest c hf hout =>
    exact h.frame (World.subperm_of_perm_cons (World.tokens_pop hout)).subset (update_ne_none _)
  | consume fd c bs hf hc hread =>
    refine h.frame (fun t ht => ?_) (update_ne_none _)
    rwa [← (World.sysRead_sameWork hread).tokens]
  | emit fd c n hf hc hwrite =>
    obtain ⟨k, -, -, -, rfl⟩ := World.sysWrite_wrote hwrite
    exact h.frame (List.Subset.refl _) (update_ne_none _)
  | park | turn => exact h.frame (fun t ht => by simpa using ht) (update_ne_none _)
  | dispatch fd c n hf hc =>
    intro t ht
    rcases mem_cons.mp ((World.tokens_enqueue _ _ _ _).subset ht) with rfl | ht
    · simp
    · exact update_ne_none _ _ (h t ht)
  | close fd c hf hc hearly =>
    intro t ht
    have htfd : t.1 ≠ fd := by
      rintro rfl
      exact hearly hA t ht ((hdisc.entry t.1 c hc).token t ht rfl).1
    simpa [htfd] using h t ht
  | enroll => exact h.frame (fun t ht => by simpa using ht) (update_ne_none _)
  | clash => exact h.frame (fun t ht => by simpa using ht) hkeep
  | misfit fd hfd =>
    intro t ht
    have htfd : t.1 ≠ fd := (h.quiet hdisc fd hfd) t ht
    simpa [htfd] using h t ht

structure Steady (v : View) : Prop where
  numbered : Numbered v
  conserved : Conserved v
  recorded : Recorded v
  disciplined : Disciplined v
  anchored : Anchored v
  owned : Owned v

theorem Steady.init : Steady .init := ⟨.init, .init, .init, .init, .init, .init⟩

theorem Steady.move (hA : A.noEarlyClose = true) (h : Steady v) (hmove : Move cfg A v v') :
    Steady v' where
  numbered := h.numbered.move hmove
  conserved := h.conserved.move h.numbered hmove
  recorded := h.recorded.move hmove
  disciplined := h.disciplined.move (.inr (h.anchored.quiet h.disciplined)) hmove
  anchored := h.anchored.move hA h.disciplined hmove
  owned := h.owned.move (by simp [hA]) h.numbered hmove

theorem Steady.entry_of_token (h : Steady v) {t : Fd × Origin} (ht : t ∈ v.world.tokens) :
    ∃ c, v.conns t.1 = some c ∧ c.id = t.2.conn ∧ c.dispatched = true ∧ c.writing = false ∧
      v.phase t.1 ≠ some .write := by
  obtain ⟨c, hc⟩ := Option.ne_none_iff_exists'.mp (h.anchored t ht)
  obtain ⟨hid, hdisp, hwriting, hph⟩ := (h.disciplined.entry t.1 c hc).token t ht rfl
  exact ⟨c, hc, hid.symm, hdisp, hwriting, hph⟩

/-! ## The stages of a connection -/

/-- What holds of every connection, open or closed: all answers but the last are written, and had
keep-alive; of the last, a part may be. -/
structure InOrder (w : World) (k : ConnId) : Prop where
  kept : ∀ i, i + 1 < (w.requests k).length →
    ∃ r, w.results ⟨k, i⟩ = some r ∧ r.keepAlive = true
  whole : w.answers k ((w.requests k).length - 1) <+: w.written k
  within : w.written k <+: w.answers k (w.requests k).length

/-- How far the responses of a connection have been written. -/
structure Stage (w : World) (fd : Fd) (c : Conn) (ph : Option Phase) : Prop where
  idle : c.dispatched = false → w.written c.id = w.answers c.id (w.requests c.id).length ∧
    ∀ i, i < (w.requests c.id).length → ∃ r, w.results ⟨c.id, i⟩ = some r ∧ r.keepAlive = true
  owed : c.dispatched = true → c.writing = false → ph ≠ some .write →
    ∃ m, (w.requests c.id).length = m + 1 ∧ w.written c.id = w.answers c.id m ∧
      (ph = none → w.results ⟨c.id, m⟩ = none ∨ ∃ t ∈ w.tokens, t.2 = ⟨c.id, m⟩)
  writing : (c.writing = true ∨ ph = some .write) →
    ∃ m, (w.requests c.id).length = m + 1 ∧ c.origin = ⟨c.id, m⟩ ∧
      c.writeOff ≤ c.writeBuf.length ∧
      w.written c.id = w.answers c.id m ++ c.writeBuf.take c.writeOff
  parked : c.writing = true → ph ≠ some .write → c.writeOff < c.writeBuf.length

/-- Responses are written whole, in the order of the requests. -/
structure Ordered (v : View) : Prop where
  inOrder : ∀ k, InOrder v.world k
  stage : v.Each Stage
  last : ∀ t ∈ v.world.tokens, t.2.index + 1 = (v.world.requests t.2.conn).length

theorem Ordered.init : Ordered .init where
  inOrder k := ⟨by simp [World.init], by simp [World.init], by simp [World.init, World.written]⟩
  stage := by simp [View.Each]
  last := by simp [World.init, World.tokens]

section Frame

variable {w w' : World} {fd : Fd} {c c' : Conn} {ph : Option Phase} {k : ConnId}

theorem InOrder.congr (h : InOrder w k) (hreq : w'.requests k = w.requests k)
    (hres : ∀ i, w'.results ⟨k, i⟩ = w.results ⟨k, i⟩)
    (htx : (w'.socks k).tx = (w.socks k).tx) : InOrder w' k := by
  have hans (m : Nat) : w'.answers k m = w.answers k m := World.answers_congr fun i _ => hres i
  have hwritten : w'.written k = w.written k := by rw [World.written, htx, World.written]
  refine ⟨fun i hi => ?_, ?_, ?_⟩
  · rw [hres]
    exact h.kept i (hreq ▸ hi)
  · rw [hreq, hans, hwritten]
    exact h.whole
  · rw [hreq, hans, hwritten]
    exact h.within

theorem Stage.congr (h : Stage w fd c ph) (hreq : w'.requests c.id = w.requests c.id)
    (hres : ∀ i, w'.results ⟨c.id, i⟩ = w.results ⟨c.id, i⟩)
    (htx : (w'.socks c.id).tx = (w.socks c.id).tx)
    (htok : ∀ t ∈ w.tokens, t.2.conn = c.id → t ∈ w'.tokens) : Stage w' fd c ph := by
  have hans (m : Nat) : w'.answers c.id m = w.answers c.id m :=
    World.answers_congr fun i _ => hres i
  have hwritten : w'.written c.id = w.written c.id := by rw [World.written, htx, World.written]
  refine ⟨fun hdisp => ?_, fun hdisp hwriting hph => ?_, fun hw => ?_, h.parked⟩
  · rw [hwritten, hreq, hans]
    simp only [hres]
    exact h.idle hdisp
  · obtain ⟨m, hm, hwr, htoken⟩ := h.owed hdisp hwriting hph
    refine ⟨m, hreq ▸ hm, by rw [hwritten, hans, hwr], fun hnone => ?_⟩
    rw [hres]
    refine (htoken hnone).imp_right fun ⟨t, ht, hto⟩ => ⟨t, htok t ht (by rw [hto]), hto⟩
  · obtain ⟨m, hm, horigin, hoff, hwr⟩ := h.writing hw
    exact ⟨m, hreq ▸ hm, horigin, hoff, by rw [hwritten, hans, hwr]⟩

theorem Stage.look {p : Phase} (h : Stage w fd c none) (hph : View.Phase.admits c p) :
    Stage w fd c (some p) := by
  refine ⟨h.idle, fun hdisp hwriting _ => ?_, fun hw => h.writing (.inl ?_), fun hw _ => ?_⟩
  · obtain ⟨m, hm, hwr, -⟩ := h.owed hdisp hwriting (by simp)
    exact ⟨m, hm, hwr, by simp⟩
  · rcases hw with hw | hw
    · exact hw
    · cases hw
      exact hph
  · exact h.parked hw (by simp)

end Frame

theorem Ordered.frame (h : Ordered v) (htok : v'.world.tokens.Perm v.world.tokens)
    (hreq : v'.world.requests = v.world.requests) (hres : v'.world.results = v.world.results)
    (htx : ∀ k, (v'.world.socks k).tx = (v.world.socks k).tx) (hconns : v'.conns = v.conns)
    (hfocus : v'.focus = v.focus) : Ordered v' where
  inOrder k := (h.inOrder k).congr (by rw [hreq]) (fun _ => by rw [hres]) (htx k)
  stage := h.stage.frame hconns hfocus fun _ c _ hstage =>
    hstage.congr (by rw [hreq]) (fun _ => by rw [hres]) (htx c.id) fun t ht _ => htok.symm.subset ht
  last t ht := by
    rw [hreq]
    exact h.last t (htok.subset ht)

theorem Ordered.rewrite {ph ph' : Option Phase} {e : Option Conn} (h : Ordered v)
    (hon : v.On fd ph) (hon' : v'.On fd ph') (hwork : v.world.SameWork v'.world)
    (htx : ∀ k, (v'.world.socks k).tx = (v.world.socks k).tx)
    (hconns : v'.conns = update v.conns fd e)
    (hat : ∀ d, e = some d → Stage v.world fd d ph') : Ordered v' := by
  have hcongr (g : Fd) (d : Conn) (p : Option Phase) (hstage : Stage v.world g d p) :
      Stage v'.world g d p :=
    hstage.congr (by rw [hwork.requests]) (fun _ => by rw [hwork.results]) (htx d.id)
      fun t ht _ => hwork.tokens.symm ▸ ht
  refine ⟨fun k => (h.inOrder k).congr (by rw [hwork.requests]) (fun _ => by rw [hwork.results])
    (htx k), h.stage.update hon hon' hconns (fun g d _ _ => hcongr g d none)
      fun d hd => hcongr fd d ph' (hat d hd), fun t ht => ?_⟩
  rw [hwork.requests]
  exact h.last t (hwork.tokens ▸ ht)

/-! ## Moves that change the stage of a connection -/

theorem Steady.eq_of_token (hs : Steady v) {t : Fd × Origin} (ht : t ∈ v.world.tokens)
    (hc : v.conns fd = some c) (hid : c.id = t.2.conn) :
    fd = t.1 ∧ c.dispatched = true ∧ c.writing = false ∧ v.phase fd ≠ some .write := by
  obtain ⟨d, hd, hdid, hrest⟩ := hs.entry_of_token ht
  obtain rfl := hs.numbered.conns_inj fd t.1 c d hc hd (hid.trans hdid.symm)
  cases hc.symm.trans hd
  exact ⟨rfl, hrest⟩

theorem Ordered.finish (hs : Steady v) (h : Ordered v) {job : Job} {w : World}
    (hi : v.world.busy[i]? = some (.handling job)) (htok : w.tokens.Perm v.world.tokens)
    (hreq : w.requests = v.world.requests)
    (hres : w.results = update v.world.results job.origin (some r))
    (hsocks : w.socks = v.world.socks) : Ordered (v.setWorld w) := by
  have hpending : v.world.Pending job := .inr (mem_of_getElem? hi)
  have hmem := hpending.token
  have hlast : job.origin.index + 1 = (v.world.requests job.origin.conn).length := h.last _ hmem
  have hnone := (hs.recorded.job job hpending).2
  have hother (k : ConnId) (j : Nat) (hne : (⟨k, j⟩ : Origin) ≠ job.origin) :
      w.results ⟨k, j⟩ = v.world.results ⟨k, j⟩ := by
    rw [hres, update_of_ne hne]
  have hconn {k : ConnId} (hk : k ≠ job.origin.conn) (j : Nat) :
      w.results ⟨k, j⟩ = v.world.results ⟨k, j⟩ := hother k j fun heq => hk (by rw [← heq])
  have hbefore (m : Nat) (hm : m ≤ job.origin.index) :
      w.answers job.origin.conn m = v.world.answers job.origin.conn m := by
    refine World.answers_congr fun j hj => hother _ j fun heq => ?_
    rw [← heq] at hm
    exact Nat.not_lt_of_le hm hj
  have hwritten (k : ConnId) : w.written k = v.world.written k := by
    rw [World.written, hsocks, World.written]
  refine ⟨fun k => ?_, fun fd c hc => ?_, fun t ht => ?_⟩
  · by_cases hk : k = job.origin.conn
    · subst hk
      obtain ⟨hkept, hwhole, hwithin⟩ := h.inOrder job.origin.conn
      simp only [View.setWorld_world]
      refine ⟨fun j hj => ?_, ?_, ?_⟩
      · rw [hother _ j fun heq => ?_]
        · exact hkept j (hreq ▸ hj)
        · rw [hreq, ← hlast, ← heq] at hj
          exact Nat.lt_irrefl _ hj
      · rw [hreq, hwritten, ← hlast, Nat.add_sub_cancel, hbefore _ (Nat.le_refl _)]
        rwa [← hlast, Nat.add_sub_cancel] at hwhole
      · rw [hreq, hwritten, ← hlast, World.answers_succ, hbefore _ (Nat.le_refl _)]
        rw [← hlast, World.answers_succ, World.answer_of_none hnone, append_nil] at hwithin
        exact hwithin.trans (prefix_append _ _)
    · exact (h.inOrder k).congr (by rw [View.setWorld_world, hreq]) (hconn hk)
        (by rw [View.setWorld_world, hsocks])
  · have hstage := h.stage fd c hc
    by_cases hid : c.id = job.origin.conn
    · obtain ⟨-, hdisp, hwriting, hph⟩ := hs.eq_of_token hmem hc hid
      refine ⟨by simp [hdisp], fun _ _ _ => ?_, ?_, by simp [hwriting]⟩
      · obtain ⟨m, hm, hwr, -⟩ := hstage.owed hdisp hwriting hph
        obtain rfl : m = job.origin.index := by
          rw [hid, ← hlast] at hm
          exact (Nat.succ.inj hm).symm
        simp only [View.setWorld_world]
        refine ⟨_, by rw [hreq, hm], ?_, fun _ => .inr ⟨_, htok.symm.subset hmem, ?_⟩⟩
        · rw [hwritten, hwr, hid, hbefore _ (Nat.le_refl _)]
        · rw [hid]
      · rintro (hw | hw)
        · simp [hwriting] at hw
        · exact absurd hw hph
    · exact hstage.congr (by rw [View.setWorld_world, hreq]) (hconn hid)
        (by rw [View.setWorld_world, hsocks]) fun t ht _ => htok.symm.subset ht
  · rw [View.setWorld_world, hreq]
    exact h.last t (htok.subset ht)

theorem Ordered.die (hs : Steady v) (h : Ordered v) {job : Job}
    (hi : v.world.busy[i]? = some (.handling job)) :
    Ordered (v.setWorld { v.world with busy := v.world.busy.eraseIdx i }) := by
  have hpending : v.world.Pending job := .inr (mem_of_getElem? hi)
  have hlast : job.origin.index + 1 = (v.world.requests job.origin.conn).length :=
    h.last _ hpending.token
  have hnone := (hs.recorded.job job hpending).2
  have hperm := World.tokens_eraseIdx hi
  refine ⟨fun k => (h.inOrder k).congr rfl (fun _ => rfl) rfl, fun fd c hc => ?_,
    fun t ht => h.last t ((World.subperm_of_perm_cons hperm).subset ht)⟩
  have hstage := h.stage fd c hc
  by_cases hid : c.id = job.origin.conn
  · refine ⟨hstage.idle, fun hdisp hwriting hph => ?_, hstage.writing, hstage.parked⟩
    obtain ⟨m, hm, hwr, -⟩ := hstage.owed hdisp hwriting hph
    refine ⟨m, hm, hwr, fun _ => .inl ?_⟩
    obtain rfl : m = job.origin.index := by
      rw [hid, ← hlast] at hm
      exact (Nat.succ.inj hm).symm
    rw [hid]
    exact hnone
  · refine hstage.congr rfl (fun _ => rfl) rfl fun t ht hconn => ?_
    rcases mem_cons.mp (hperm.subset ht) with rfl | ht
    · exact absurd hconn.symm hid
    · exact ht

theorem Ordered.pop (hs : Steady v) (h : Ordered v) {hb : WorkerHandback}
    {rest : List WorkerHandback} {ph : Option Phase} {e : Option Conn} (hf : v.focus = none)
    (hout : v.world.outbox = hb :: rest)
    (hworld : v'.world = { v.world with outbox := rest }) (hon' : v'.On hb.fd ph)
    (hconns : v'.conns = update v.conns hb.fd e)
    (hat : ∀ d, e = some d → Stage v'.world hb.fd d ph) : Ordered v' := by
  have hperm := World.tokens_pop hout
  have hmem : (hb.fd, hb.origin) ∈ v.world.tokens := hperm.symm.subset mem_cons_self
  refine ⟨fun k => ?_, h.stage.update (View.on_none hf) hon' hconns
    (fun g d hg hd hstage => ?_) hat, fun t ht => ?_⟩
  · exact (h.inOrder k).congr (by rw [hworld]) (fun _ => by rw [hworld]) (by rw [hworld])
  · refine hstage.congr (by rw [hworld]) (fun _ => by rw [hworld]) (by rw [hworld])
      fun t ht hconn => ?_
    rw [hworld]
    rcases mem_cons.mp (hperm.subset ht) with rfl | ht
    · exact absurd (hs.eq_of_token hmem hd hconn.symm).1 hg
    · exact ht
  · rw [hworld] at ht ⊢
    exact h.last t ((World.subperm_of_perm_cons hperm).subset ht)

theorem Ordered.emit (hs : Steady v) (h : Ordered v) {n : Nat} {w : World}
    (hf : v.focus = some (fd, .write)) (hc : v.conns fd = some c)
    (hwrite : v.world.sysWrite fd c.origin (c.writeBuf.drop c.writeOff) (.wrote n) = some w) :
    Ordered ((v.setWorld w).setConn fd { c with writeOff := c.writeOff + n }) := by
  have hon := View.on_some hf
  have hentry := hs.disciplined.entry.on hon hc
  obtain ⟨m, hm, horigin, hoff, hwr⟩ := (h.stage.on hon hc).writing (.inr rfl)
  have hans : v.world.answer c.id m = c.writeBuf := by
    have := hs.recorded.response fd c hc (.inr hon.phase)
    rw [horigin] at this
    exact World.answer_of_some this
  obtain ⟨k, hk, -, hn, rfl⟩ := World.sysWrite_wrote hwrite
  obtain rfl : k = c.id := Option.some.inj (hk.symm.trans hentry.write.2)
  set w := v.world.setSock c.id { v.world.socks c.id with
    tx := (v.world.socks c.id).tx ++
      [(c.origin, (c.writeBuf.drop c.writeOff).take n)] } with hw
  have hnew : w.written c.id = v.world.answers c.id m ++ c.writeBuf.take (c.writeOff + n) := by
    have : w.written c.id = v.world.written c.id ++ (c.writeBuf.drop c.writeOff).take n := by
      simp [World.written, hw, World.setSock]
    rw [this, hwr, append_assoc, ← take_add]
  have htx (k : ConnId) (hk : k ≠ c.id) : (w.socks k).tx = (v.world.socks k).tx := by
    simp [hw, World.setSock, hk]
  refine ⟨fun k => ?_, h.stage.update hon hon rfl (fun g d hg hd hstage => ?_) fun d hd => ?_,
    h.last⟩
  · by_cases hkc : k = c.id
    · subst hkc
      refine ⟨(h.inOrder c.id).kept, ?_, ?_⟩
      · change v.world.answers c.id ((v.world.requests c.id).length - 1) <+: w.written c.id
        rw [hm, Nat.add_sub_cancel, hnew]
        exact prefix_append _ _
      · change w.written c.id <+: v.world.answers c.id (v.world.requests c.id).length
        rw [hm, hnew, World.answers_succ, hans, prefix_append_right_inj]
        exact take_prefix _ _
    · exact (h.inOrder k).congr rfl (fun _ => rfl) (htx k hkc)
  · exact hstage.congr rfl (fun _ => rfl) (htx d.id (hs.numbered.ne_of_ne hc hg hd))
      fun _ ht _ => ht
  · cases hd
    have hdisp := (hentry.answering rfl).1
    refine ⟨by simp [hdisp], fun _ _ hph => absurd rfl hph, fun _ => ⟨m, hm, horigin, ?_, hnew⟩,
      fun _ hph => absurd rfl hph⟩
    rw [length_drop] at hn
    exact Nat.add_le_of_le_sub' hoff hn

theorem Ordered.turned (hs : Steady v) (h : Ordered v) (hf : v.focus = some (fd, .write))
    (hc : v.conns fd = some c) (hoff : c.writeBuf.length ≤ c.writeOff)
    (hkeep : c.keepAlive = true) :
    Stage v.world fd
      { c with dispatched := false, writing := false, writeBuf := [], writeOff := 0 }
      (some .serve) := by
  have hon := View.on_some hf
  obtain ⟨m, hm, horigin, -, hwr⟩ := (h.stage.on hon hc).writing (.inr rfl)
  have hres : v.world.results ⟨c.id, m⟩ = some ⟨c.writeBuf, c.keepAlive⟩ :=
    horigin ▸ hs.recorded.response fd c hc (.inr hon.phase)
  refine ⟨fun _ => ⟨?_, fun i hi => ?_⟩, by simp, by simp, by simp⟩
  · rw [hwr, hm, World.answers_succ, World.answer_of_some hres, take_of_length_le hoff]
  · by_cases him : i = m
    · exact ⟨_, him ▸ hres, hkeep⟩
    · refine (h.inOrder c.id).kept i ?_
      simp only at hi
      omega

theorem Ordered.dispatch (hs : Steady v) (h : Ordered v) (n : Nat)
    (hf : v.focus = some (fd, .serve)) (hc : v.conns fd = some c) :
    Ordered (((v.setWorld (v.world.enqueue fd c.id (c.buf.take n))).setConn fd
      { c with dispatched := true, buf := c.buf.drop n }).look none) := by
  have hon := View.on_some hf
  obtain ⟨hquiet, -, hdisp, hwriting⟩ := (hs.disciplined.entry.on hon hc).serve
  obtain ⟨hwr, hkept⟩ := (h.stage.on hon hc).idle hdisp
  set w := v.world.enqueue fd c.id (c.buf.take n) with hw
  have hperm := World.tokens_enqueue v.world fd c.id (c.buf.take n)
  have hlen : (w.requests c.id).length = (v.world.requests c.id).length + 1 := by
    simp [hw, World.enqueue]
  have hreq (k : ConnId) (hk : k ≠ c.id) : w.requests k = v.world.requests k := by
    simp [hw, World.enqueue, hk]
  refine ⟨fun k => ?_, h.stage.update hon (View.on_none rfl) rfl (fun g d hg hd hstage => ?_)
    fun d hd => ?_, fun t ht => ?_⟩
  · by_cases hk : k = c.id
    · subst hk
      refine ⟨fun i hi => hkept i ?_, ?_, ?_⟩
      · change i + 1 < (w.requests c.id).length at hi
        rw [hlen] at hi
        exact Nat.lt_of_succ_lt_succ hi
      · change v.world.answers c.id ((w.requests c.id).length - 1) <+: v.world.written c.id
        rw [hlen, Nat.add_sub_cancel, hwr]
      · change v.world.written c.id <+: v.world.answers c.id (w.requests c.id).length
        rw [hlen, hwr, World.answers_succ]
        exact prefix_append _ _
    · exact (h.inOrder k).congr (hreq k hk) (fun _ => rfl) rfl
  · exact hstage.congr (hreq d.id (hs.numbered.ne_of_ne hc hg hd)) (fun _ => rfl) rfl
      fun t ht _ => hperm.symm.subset (mem_cons_of_mem _ ht)
  · cases hd
    have htoken : (fd, ⟨c.id, (v.world.requests c.id).length⟩) ∈ w.tokens :=
      hperm.symm.subset mem_cons_self
    exact ⟨by simp, fun _ _ _ => ⟨_, hlen, hwr, fun _ => .inr ⟨_, htoken, rfl⟩⟩, by simp [hwriting],
      by simp [hwriting]⟩
  · change t.2.index + 1 = (w.requests t.2.conn).length
    rcases mem_cons.mp (hperm.subset ht) with rfl | ht
    · exact hlen.symm
    · have hne : t.2.conn ≠ c.id := fun heq =>
        hquiet t ht (hs.eq_of_token ht hc heq.symm).1.symm
      rw [hreq _ hne]
      exact h.last t ht

theorem Ordered.fresh (hs : Steady v) (h : Ordered v) (fd : Fd) :
    Stage v.world fd { id := v.world.accepted } none := by
  obtain ⟨hreq, -⟩ := hs.conserved.unused v.world.accepted (Nat.le_refl _)
  have hwithin := (h.inOrder v.world.accepted).within
  refine ⟨fun _ => ⟨?_, by simp [hreq]⟩, by simp, by simp, by simp⟩
  rw [hreq] at hwithin ⊢
  exact eq_nil_of_prefix_nil hwithin

theorem Ordered.move (hA : A.noEarlyClose = true) (hs : Steady v) (h : Ordered v)
    (hmove : Move cfg A v v') : Ordered v' := by
  cases hmove with
  | env | goto | poll | stopOutbox | skip | refuse =>
    exact h.frame (.refl _) rfl rfl (fun _ => rfl) rfl rfl
  | arrive fd bs harr =>
    have htx := World.arrive_tx harr
    obtain ⟨c, -, rfl⟩ := World.arrive_eq harr
    exact h.frame (.refl _) rfl rfl htx rfl rfl
  | hangup fd hhang =>
    have htx := World.hangup_tx hhang
    obtain ⟨c, -, rfl⟩ := World.hangup_eq hhang
    exact h.frame (.refl _) rfl rfl htx rfl rfl
  | start job rest hq => exact h.frame (World.tokens_start hq) rfl rfl (fun _ => rfl) rfl rfl
  | die i job hi => exact h.die hs hi
  | handback i job r hi => exact h.finish hs hi (World.tokens_handback hi r) rfl rfl rfl
  | reject i job r hi =>
    exact h.finish hs hi (.of_eq (World.tokens_set (.closing job) hi rfl)) rfl rfl rfl
  | closeRejected i job hi hf hearly => simp [hA] at hearly
  | discard hb rest hf hout hc =>
    have hmem : (hb.fd, hb.origin) ∈ v.world.tokens :=
      (World.tokens_pop hout).symm.subset mem_cons_self
    exact absurd hc (hs.anchored _ hmem)
  | take e evs c ph hf hpc hc hph =>
    refine h.rewrite (View.on_none hf) (View.on_some rfl) ⟨rfl, rfl, rfl, rfl, rfl⟩
      (fun _ => rfl) (v.same_entry e.fd) fun d hd => ?_
    cases hc.symm.trans hd
    exact (h.stage.on (View.on_none hf) hc).look hph
  | deny hb rest c hf hout hc =>
    have hmem : (hb.fd, hb.origin) ∈ v.world.tokens :=
      (World.tokens_pop hout).symm.subset mem_cons_self
    refine h.pop hs hf hout rfl (View.on_some rfl) (v.same_entry hb.fd) fun d hd => ?_
    cases hc.symm.trans hd
    obtain ⟨-, hdisp, hwriting, -⟩ :=
      (hs.disciplined.entry.on (View.on_none hf) hc).token _ hmem rfl
    obtain ⟨m, hm, hwr, -⟩ := (h.stage.on (View.on_none hf) hc).owed hdisp hwriting (by simp)
    exact ⟨by simp [hdisp], fun _ _ _ => ⟨m, hm, hwr, by simp⟩, by simp [hwriting],
      by simp [hwriting]⟩
  | answer hb rest c hf hout hc =>
    have hmem : (hb.fd, hb.origin) ∈ v.world.tokens :=
      (World.tokens_pop hout).symm.subset mem_cons_self
    refine h.pop hs hf hout rfl (View.on_some rfl) rfl fun d hd => ?_
    cases hd
    obtain ⟨hid, hdisp, hwriting, -⟩ :=
      (hs.disciplined.entry.on (View.on_none hf) hc).token _ hmem rfl
    obtain ⟨m, hm, hwr, -⟩ := (h.stage.on (View.on_none hf) hc).owed hdisp hwriting (by simp)
    -- the handback answers the connection's last request
    have horigin : hb.origin = ⟨c.id, m⟩ := by
      have hlast : hb.origin.index + 1 = (v.world.requests hb.origin.conn).length := h.last _ hmem
      rw [hid, hm] at hlast
      exact Origin.ext hid (Nat.succ.inj hlast)
    refine ⟨by simp [hdisp], fun _ _ hph => absurd rfl hph, fun _ => ⟨m, hm, horigin, ?_, ?_⟩,
      by simp [hwriting]⟩
    · exact Nat.zero_le _
    · rw [take_zero, append_nil]
      exact hwr
  | consume fd c bs hf hc hread =>
    refine h.rewrite (View.on_some hf) (View.on_some hf) (World.sysRead_sameWork hread)
      (World.sysRead_tx hread) rfl fun d hd => ?_
    cases hd
    obtain ⟨hidle, howed, hwriting, hparked⟩ := h.stage.on (View.on_some hf) hc
    exact ⟨hidle, howed, hwriting, hparked⟩
  | emit fd c n hf hc hwrite => exact h.emit hs hf hc hwrite
  | park fd c ok hf hc hoff =>
    refine h.rewrite (View.on_some hf) (View.on_none rfl) (World.sameWork_arm _ _ _ _)
      (by simp) rfl fun d hd => ?_
    cases hd
    have hdisp := ((hs.disciplined.entry.on (View.on_some hf) hc).answering rfl).1
    have hwriting := (h.stage.on (View.on_some hf) hc).writing (.inr rfl)
    exact ⟨by simp [hdisp], by simp, fun _ => hwriting, fun _ _ => hoff⟩
  | turn fd c ok hf hc hoff hkeep =>
    refine h.rewrite (View.on_some hf) (View.on_some rfl) (World.sameWork_arm _ _ _ _)
      (by simp) rfl fun d hd => ?_
    cases hd
    exact h.turned hs hf hc hoff hkeep
  | rest fd c k hf hc =>
    refine h.rewrite (View.on_some hf) (View.on_none rfl) ⟨rfl, rfl, rfl, rfl, rfl⟩
      (fun _ => rfl) (v.same_entry fd) fun d hd => ?_
    cases hc.symm.trans hd
    obtain ⟨-, -, hdisp, hwriting⟩ := (hs.disciplined.entry.on (View.on_some hf) hc).serve
    exact ⟨(h.stage.on (View.on_some hf) hc).idle, by simp [hdisp], by simp [hwriting],
      by simp [hwriting]⟩
  | dispatch fd c n hf hc => exact h.dispatch hs n hf hc
  | close fd c hf hc =>
    obtain ⟨ph, hon⟩ := View.on_of_close hf
    exact h.rewrite hon (View.on_none rfl) (World.sameWork_close _ _ _) (fun _ => rfl) rfl nofun
  | enroll fd hfd hlisten hf hc =>
    refine h.rewrite (View.on_none hf) (View.on_none hf)
      ((World.sameWork_opened _ _).trans (World.sameWork_arm _ _ _ _)) (by simp [World.opened])
      rfl fun d hd => ?_
    cases hd
    exact h.fresh hs fd
  | clash fd c hfd hlisten hf hc =>
    have := hs.owned.entries fd
    simp [hc, hfd] at this
  | misfit fd hfd hf =>
    exact h.rewrite (View.on_none hf) (View.on_none hf) ⟨rfl, rfl, rfl, rfl, rfl⟩
      (fun _ => rfl) rfl nofun

/-! ## Closed connections -/

/-- Connection `k` is closed, and nothing is dispatched or written for it any more. -/
structure Gone (k : ConnId) (reqs : List (List UInt8)) (tx : List (Origin × List UInt8))
    (v : View) : Prop where
  lt : k < v.world.accepted
  shut : ∀ fd, v.world.fds fd ≠ some k
  noEntry : ∀ fd c, v.conns fd = some c → c.id ≠ k
  requests : v.world.requests k = reqs
  tx : (v.world.socks k).tx = tx

section Gone

variable {k : ConnId} {reqs : List (List UInt8)} {tx : List (Origin × List UInt8)}

theorem Gone.frame (h : Gone k reqs tx v) (hacc : v.world.accepted ≤ v'.world.accepted)
    (hfds : ∀ fd, v'.world.fds fd = some k → v.world.fds fd = some k)
    (hconns : ∀ fd c', v'.conns fd = some c' → c'.id = k → ∃ c, v.conns fd = some c ∧ c.id = k)
    (hreq : v'.world.requests k = v.world.requests k)
    (htx : (v'.world.socks k).tx = (v.world.socks k).tx) : Gone k reqs tx v' where
  lt := Nat.lt_of_lt_of_le h.lt hacc
  shut fd hfd := h.shut fd (hfds fd hfd)
  noEntry fd c' hc' hid := by
    obtain ⟨c, hc, hid⟩ := hconns fd c' hc' hid
    exact h.noEntry fd c hc hid
  requests := hreq.trans h.requests
  tx := htx.trans h.tx

theorem Gone.move (h : Gone k reqs tx v) (hmove : Move cfg A v v') : Gone k reqs tx v' := by
  have hsame (fd : Fd) (c : Conn) (hc : v.conns fd = some c) (hid : c.id = k) :
      ∃ d, v.conns fd = some d ∧ d.id = k := ⟨c, hc, hid⟩
  have hupdate {fd : Fd} {c c' : Conn} (hc : v.conns fd = some c) (hcc : c'.id = c.id) (g : Fd)
      (d : Conn) (hd : update v.conns fd (some c') g = some d) (hid : d.id = k) :
      ∃ e, v.conns g = some e ∧ e.id = k := by
    obtain ⟨e, he, heid⟩ := same_ids hc hcc g d hd
    exact ⟨e, he, heid.trans hid⟩
  have hdrop {fd : Fd} (g : Fd) (d : Conn) (hd : update v.conns fd none g = some d)
      (hid : d.id = k) : ∃ e, v.conns g = some e ∧ e.id = k := by
    by_cases hg : g = fd
    · subst hg; simp at hd
    · exact ⟨d, by simpa [hg] using hd, hid⟩
  have hclosed {fd : Fd} (g : Fd) (hg : update v.world.fds fd none g = some k) :
      v.world.fds g = some k := by
    by_cases hgfd : g = fd
    · subst hgfd; simp at hg
    · simpa [hgfd] using hg
  have hopened {fd : Fd} (g : Fd) (hg : (v.world.opened fd).fds g = some k) :
      v.world.fds g = some k := by
    by_cases hgfd : g = fd
    · subst hgfd
      have hk : v.world.accepted = k := by simpa [World.opened] using hg
      exact absurd h.lt (hk ▸ Nat.lt_irrefl _)
    · simpa [World.opened, hgfd] using hg
  have hpassed {fd : Fd} (g : Fd)
      (hg : ((v.world.opened fd).close fd v.world.accepted).fds g = some k) :
      v.world.fds g = some k := by
    by_cases hgfd : g = fd
    · subst hgfd; simp [World.close] at hg
    · simpa [World.close, World.opened, hgfd] using hg
  cases hmove with
  | env | start | die | handback | reject | goto | poll | stopOutbox | skip | discard | rest | take
  | deny => exact h.frame (Nat.le_refl _) (fun _ hfd => hfd) hsame rfl rfl
  | arrive fd bs harr =>
    have htx := World.arrive_tx harr k
    obtain ⟨c, -, rfl⟩ := World.arrive_eq harr
    exact h.frame (Nat.le_refl _) (fun _ hfd => hfd) hsame rfl htx
  | hangup fd hhang =>
    have htx := World.hangup_tx hhang k
    obtain ⟨c, -, rfl⟩ := World.hangup_eq hhang
    exact h.frame (Nat.le_refl _) (fun _ hfd => hfd) hsame rfl htx
  | closeRejected i job => exact h.frame (Nat.le_refl _) hclosed hsame rfl rfl
  | answer hb rest c hf hout hc =>
    exact h.frame (Nat.le_refl _) (fun _ hfd => hfd) (hupdate hc rfl) rfl rfl
  | consume fd c bs hf hc hread =>
    have htx := World.sysRead_tx hread k
    obtain ⟨j, -, -, -, -, rfl⟩ := World.sysRead_data hread
    exact h.frame (Nat.le_refl _) (fun _ hfd => hfd) (hupdate hc rfl) rfl htx
  | emit fd c n hf hc hwrite =>
    obtain ⟨j, hj, -, -, rfl⟩ := World.sysWrite_wrote hwrite
    have hne : k ≠ j := by
      rintro rfl
      exact h.shut fd hj
    exact h.frame (Nat.le_refl _) (fun _ hfd => hfd) (hupdate hc rfl) rfl
      (by simp [World.setSock, hne])
  | park fd c ok hf hc | turn fd c ok hf hc =>
    exact h.frame (by simp) (by simp) (hupdate hc rfl) (by simp) (by simp)
  | dispatch fd c n hf hc =>
    have hne : k ≠ c.id := fun heq => h.noEntry fd c hc heq.symm
    exact h.frame (Nat.le_refl _) (fun _ hfd => hfd) (hupdate hc rfl)
      (by simp [World.enqueue, hne]) rfl
  | close fd c hf hc => exact h.frame (Nat.le_refl _) hclosed hdrop rfl rfl
  | refuse fd => exact h.frame (Nat.le_succ _) hpassed hsame rfl rfl
  | enroll fd =>
    refine h.frame (by simp [World.opened]) (fun g hg => hopened g (by simpa using hg))
      (fun g d hd hid => ?_) (by simp [World.opened]) (by simp [World.opened])
    by_cases hg : g = fd
    · subst hg
      cases (update_self g _ v.conns).symm.trans hd
      exact absurd h.lt (hid ▸ Nat.lt_irrefl _)
    · exact ⟨d, by simpa [hg] using hd, hid⟩
  | clash fd =>
    exact h.frame (by simp [World.opened]) (fun g hg => hopened g (by simpa using hg)) hsame
      (by simp [World.opened]) (by simp [World.opened])
  | misfit fd => exact h.frame (Nat.le_succ _) hpassed hdrop rfl rfl

end Gone

theorem Ordered.length_of_last (hs : Steady v) (h : Ordered v) {k : ConnId}
    (hr : v.world.results ⟨k, i⟩ = some r) (hkeep : r.keepAlive = false) :
    (v.world.requests k).length = i + 1 := by
  have hlt : i < (v.world.requests k).length := hs.recorded.result_lt ⟨k, i⟩ r hr
  by_contra hne
  obtain ⟨r', hr', hkeep'⟩ := (h.inOrder k).kept i (by omega)
  cases hr.symm.trans hr'
  simp [hkeep] at hkeep'

theorem Ordered.noEntry_of_written (hs : Steady v) (h : Ordered v) (hf : v.focus = none)
    {k : ConnId} (hr : v.world.results ⟨k, i⟩ = some r) (hkeep : r.keepAlive = false)
    (hfull : v.world.written k = v.world.answers k (i + 1))
    (hdrained : r.response ≠ [] ∨ ∀ t ∈ v.world.tokens, t.2 ≠ ⟨k, i⟩) (fd : Fd) (c : Conn)
    (hc : v.conns fd = some c) : c.id ≠ k := by
  rintro rfl
  have hon : v.On fd none := View.on_none hf
  have hlen := h.length_of_last hs hr hkeep
  have hstage := h.stage.on hon hc
  rw [World.answers_succ, World.answer_of_some hr] at hfull
  cases hdisp : c.dispatched with
  | false =>
    obtain ⟨r', hr', hkeep'⟩ := (hstage.idle hdisp).2 i (by omega)
    cases hr.symm.trans hr'
    simp [hkeep] at hkeep'
  | true =>
    cases hwriting : c.writing with
    | false =>
      -- the answer is still owed: it has no bytes, and its handback is on its way
      obtain ⟨m, hm, hwr, htoken⟩ := hstage.owed hdisp hwriting (by simp)
      obtain rfl : m = i := by omega
      have hempty : r.response = [] := by
        rw [hwr] at hfull
        exact self_eq_append_right.mp hfull
      rcases htoken rfl with hnone | ⟨t, ht, hto⟩
      · simp [hr] at hnone
      · rcases hdrained with hne | hnone
        · exact hne hempty
        · exact hnone t ht hto
    | true =>
      -- a parked write has bytes left
      obtain ⟨m, hm, horigin, -, hwr⟩ := hstage.writing (.inl hwriting)
      obtain rfl : m = i := by omega
      have hresp := hs.recorded.response fd c hc (.inl hwriting)
      rw [horigin, hr] at hresp
      have hbuf : r.response = c.writeBuf := congrArg HandlerResult.response (Option.some.inj hresp)
      have hlt := hstage.parked hwriting (by simp)
      rw [hwr, hbuf, append_cancel_left_eq] at hfull
      have := congrArg List.length hfull
      rw [length_take] at this
      omega

theorem Assume.holds_of_drained {s : State} {a : Act} (h : ClosesDrained cfg s a) :
    Assume.Holds { noEarlyClose := true } cfg s a where
  fresh := by simp
  noReject := by simp
  noDie := by simp
  noEarlyClose _ := h
  clean := by simp
  polled := by simp

/-- **In-order, complete responses.** In every run that closes no connection between a dispatch and
the draining of its handback:

* what is written to a connection is a prefix of its answers in the order of the requests;
* all answers before the last dispatched request are given and wholly written;
* an answer without keep-alive is the last one; once it is written (an empty one: once its handback
  is drained) the connection is closed, and however the run goes on nothing more is dispatched from
  it or written to it. -/
theorem responses_in_order {as : List Act} {s : State}
    (hrun : exec (step cfg) (.init cfg) as = some s)
    (hdrained : Meets (step cfg) (ClosesDrained cfg) (.init cfg) as) (k : ConnId) :
    s.world.written k <+: s.world.answers k (s.world.requests k).length ∧
      (s.world.answers k ((s.world.requests k).length - 1) <+: s.world.written k ∧
        ∀ i, i + 1 < (s.world.requests k).length → s.world.results ⟨k, i⟩ ≠ none) ∧
      ∀ i r, s.world.results ⟨k, i⟩ = some r → r.keepAlive = false →
        (s.world.requests k).length = i + 1 ∧
          (s.world.written k = s.world.answers k (i + 1) →
            (r.response ≠ [] ∨ ∀ t ∈ s.world.tokens, t.2 ≠ ⟨k, i⟩) →
            ∀ as' s', exec (step cfg) s as' = some s' →
              (∀ fd, s'.world.fds fd ≠ some k) ∧ s'.world.requests k = s.world.requests k ∧
                (s'.world.socks k).tx = (s.world.socks k).tx) := by
  have hmeets : Meets (step cfg) (Assume.Holds { noEarlyClose := true } cfg) (.init cfg) as :=
    hdrained.mono fun _ _ => Assume.holds_of_drained
  have hinv : Steady s.view ∧ Ordered s.view :=
    run_invariant (I := fun v => Steady v ∧ Ordered v) ⟨.init, .init⟩
      (fun _ _ h hmove => ⟨h.1.move rfl hmove, h.2.move rfl h.1 hmove⟩) hrun hmeets
  obtain ⟨hs, hord⟩ := hinv
  obtain ⟨hkept, hwhole, hwithin⟩ := hord.inOrder k
  refine ⟨hwithin, ⟨hwhole, fun i hi => ?_⟩, fun i r hr hkeep => ?_⟩
  · obtain ⟨r, hr, -⟩ := hkept i hi
    exact Option.ne_none_iff_exists'.mpr ⟨r, hr⟩
  · refine ⟨hord.length_of_last hs hr hkeep, fun hfull hgone as' s' hrun' => ?_⟩
    have hnone := hord.noEntry_of_written hs rfl hr hkeep hfull hgone
    have hlt : k < s.view.world.accepted := by
      by_contra hle
      have hreq := (hs.conserved.unused k (Nat.le_of_not_lt hle)).1
      have hlen := hord.length_of_last hs hr hkeep
      simp [hreq] at hlen
    have hgone : Gone k (s.world.requests k) (s.world.socks k).tx s.view := by
      refine ⟨hlt, fun fd hfd => ?_, hnone, rfl, rfl⟩
      rw [← hs.owned.entries fd] at hfd
      obtain ⟨c, hc, hid⟩ := Option.map_eq_some_iff.mp hfd
      exact hnone fd c hc hid
    have hwf := (run_moves (init_wf cfg) hrun hmeets).1
    have hgone' := (run_moves_always hwf hrun').2.invariant (fun _ _ h hmove => h.move hmove) hgone
    exact ⟨hgone'.shut, hgone'.requests, hgone'.tx⟩

def lastAnswer : List Act :=
  acceptAt 5 ++ requestAt 5 ++
    [.start, .finish 0 (.returns ⟨[65, 66], false⟩), .poll [],
      .drain { writes := [.wrote 1, .eintr, .wrote 1] }]

theorem responses_in_order_lastAnswer :
    ∃ s ∈ exec (step .sample) (.init .sample) lastAnswer,
      s.world.written 0 = [65, 66] ∧ (s.world.requests 0).length = 1 ∧
        ∀ fd, s.world.fds fd ≠ some 0 := by
  have hends : ∃ s ∈ exec (step .sample) (.init .sample) lastAnswer,
      s.world.written 0 = [65, 66] ∧ s.world.results ⟨0, 0⟩ = some ⟨[65, 66], false⟩ := by
    decide +kernel
  obtain ⟨s, hrun, hwritten, hres⟩ := hends
  obtain ⟨-, -, hlast⟩ := responses_in_order hrun (by decide +kernel) 0
  obtain ⟨hlen, hclosed⟩ := hlast 0 _ hres rfl
  have hfull : s.world.written 0 = s.world.answers 0 (0 + 1) := by
    rw [hwritten, World.answers_succ, World.answer_of_some hres, World.answers_zero]
    rfl
  exact ⟨s, hrun, hwritten, hlen, (hclosed hfull (.inl (by simp)) [] s rfl).1⟩

end Reactor

end Muses
