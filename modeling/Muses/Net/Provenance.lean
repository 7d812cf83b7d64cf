import Muses.Net.Protocol

/-!
# Where responses come from

`Recorded` holds in every run of the connection protocol: each request is handed to the handler at
most once, a handback carries what the handler made of the request it names, and so does every
response that is being written and every piece of one that has been written. Nothing is said here
about whose connection the bytes reach; that is `Muses.Net.Discipline`.
-/

namespace Muses

open Muses.Core Function List
open World (subperm_of_perm_cons nodup_map_of_subperm)

namespace World

/-- The job waits, or its handler runs. -/
def Pending (w : World) (j : Job) : Prop := j ∈ w.queue ∨ .handling j ∈ w.busy

theorem Pending.token {w : World} {j : Job} (h : w.Pending j) : (j.fd, j.origin) ∈ w.tokens := by
  simp only [tokens, mem_append, mem_map]
  rcases h with h | h
  · exact .inl (.inl ⟨j, h, rfl⟩)
  · exact .inl (.inr ⟨.handling j, h, rfl⟩)

end World

namespace Reactor

variable {cfg : Config} {A : Assume} {v v' : View}

/-- Every job, handback and response carries what belongs to the request it names. -/
structure Recorded (v : View) : Prop where
  origins : (v.world.tokens.map Prod.snd).Nodup
  index_lt : ∀ t ∈ v.world.tokens, t.2.index < (v.world.requests t.2.conn).length
  /-- a pending job carries the request it names, and the handler has not answered it yet -/
  job : ∀ j, v.world.Pending j →
    (v.world.requests j.origin.conn)[j.origin.index]? = some j.request ∧
      v.world.results j.origin = none
  result_lt : ∀ o r, v.world.results o = some r → o.index < (v.world.requests o.conn).length
  handback : ∀ hb ∈ v.world.outbox, v.world.results hb.origin = some ⟨hb.response, hb.keepAlive⟩
  response : ∀ fd c, v.conns fd = some c → (c.writing = true ∨ v.phase fd = some .write) →
    v.world.results c.origin = some ⟨c.writeBuf, c.keepAlive⟩
  sent : ∀ k, ∀ e ∈ (v.world.socks k).tx,
    ∃ r, v.world.results e.1 = some r ∧ e.2 <:+: r.response

/-- Nothing new is pending or handed back, and requests and results are as they were. -/
theorem Recorded.frame (h : Recorded v) (htok : v'.world.tokens <+~ v.world.tokens)
    (hpend : ∀ j, v'.world.Pending j → v.world.Pending j)
    (hout : ∀ hb ∈ v'.world.outbox, hb ∈ v.world.outbox)
    (hreq : v'.world.requests = v.world.requests) (hres : v'.world.results = v.world.results)
    (hresp : ∀ fd c, v'.conns fd = some c → (c.writing = true ∨ v'.phase fd = some .write) →
      v.world.results c.origin = some ⟨c.writeBuf, c.keepAlive⟩)
    (hsent : ∀ k, ∀ e ∈ (v'.world.socks k).tx,
      ∃ r, v.world.results e.1 = some r ∧ e.2 <:+: r.response) : Recorded v' where
  origins := nodup_map_of_subperm htok h.origins
  index_lt t ht := by
    rw [hreq]
    exact h.index_lt t (htok.subset ht)
  job j hj := by
    rw [hreq, hres]
    exact h.job j (hpend j hj)
  result_lt o r hr := by
    rw [hreq]
    exact h.result_lt o r (hres ▸ hr)
  handback hb hhb := by
    rw [hres]
    exact h.handback hb (hout hb hhb)
  response fd c hc hw := by
    rw [hres]
    exact hresp fd c hc hw
  sent k e he := by
    rw [hres]
    exact hsent k e he

theorem Recorded.keep (h : Recorded v) (hwork : v.world.SameWork v'.world)
    (hresp : ∀ fd c, v'.conns fd = some c → (c.writing = true ∨ v'.phase fd = some .write) →
      v.world.results c.origin = some ⟨c.writeBuf, c.keepAlive⟩)
    (hsent : ∀ k, ∀ e ∈ (v'.world.socks k).tx,
      ∃ r, v.world.results e.1 = some r ∧ e.2 <:+: r.response) : Recorded v' := by
  refine h.frame (List.Perm.of_eq hwork.tokens).subperm (fun j hj => ?_) (fun hb hhb => ?_)
    hwork.requests hwork.results hresp hsent
  · rwa [World.Pending, hwork.queue, hwork.busy] at hj
  · rwa [hwork.outbox] at hhb

theorem Recorded.finish (h : Recorded v) {i : Nat} {job : Job} {r : HandlerResult} {w : World}
    (hi : v.world.busy[i]? = some (.handling job)) (htok : w.tokens ~ v.world.tokens)
    (hpend : ∀ j, w.Pending j → j ∈ v.world.queue ∨ .handling j ∈ v.world.busy.eraseIdx i)
    (hout : ∀ hb ∈ w.outbox, hb ∈ v.world.outbox ∨
      hb = ⟨job.fd, r.keepAlive, r.response, job.origin⟩)
    (hreq : w.requests = v.world.requests)
    (hres : w.results = update v.world.results job.origin (some r))
    (hsocks : w.socks = v.world.socks) : Recorded (v.setWorld w) := by
  have hpending : v.world.Pending job := .inr (mem_of_getElem? hi)
  have hnone := (h.job job hpending).2
  -- the answered request had no answer, so every answer given before stays
  have hkeep (o : Origin) (a : HandlerResult) (ho : v.world.results o = some a) :
      w.results o = some a := by
    rw [hres, update_of_ne, ho]
    rintro rfl
    rw [hnone] at ho
    cases ho
  have hself : w.results job.origin = some r := by rw [hres, update_self]
  have hother (j : Job) (hj : j ∈ v.world.queue ∨ .handling j ∈ v.world.busy.eraseIdx i) :
      j.origin ≠ job.origin := by
    have hperm := World.tokens_eraseIdx hi
    have hnd := nodup_cons.mp (((hperm.map Prod.snd).nodup_iff).mp h.origins)
    intro heq
    exact hnd.1 (mem_map.mpr ⟨_,
      World.Pending.token (w := { v.world with busy := v.world.busy.eraseIdx i }) hj, heq⟩)
  have hmem (j : Job) (hj : j ∈ v.world.queue ∨ .handling j ∈ v.world.busy.eraseIdx i) :
      v.world.Pending j := hj.imp_right (eraseIdx_subset ·)
  exact {
    origins := ((htok.map _).nodup_iff).mpr h.origins
    index_lt := fun t ht => by
      rw [View.setWorld_world, hreq]
      exact h.index_lt t (htok.subset ht)
    job := fun j hj => by
      have hold := h.job j (hmem j (hpend j hj))
      simp only [View.setWorld_world, hreq, hres]
      rw [update_of_ne (hother j (hpend j hj))]
      exact hold
    result_lt := fun o a ho => by
      rw [View.setWorld_world, hreq]
      by_cases hoj : o = job.origin
      · subst hoj
        exact h.index_lt _ hpending.token
      · refine h.result_lt o a ?_
        rwa [View.setWorld_world, hres, update_of_ne hoj] at ho
    handback := fun hb hhb => by
      rcases hout hb hhb with hhb | rfl
      · exact hkeep _ _ (h.handback hb hhb)
      · exact hself
    response := fun fd c hc hw => hkeep _ _ (h.response fd c hc hw)
    sent := fun k e he => by
      obtain ⟨a, ha, hinfix⟩ := h.sent k e (by rwa [View.setWorld_world, hsocks] at he)
      exact ⟨a, hkeep _ _ ha, hinfix⟩ }

theorem Recorded.response_at (h : Recorded v) {fd : Fd} {ph ph' : Option Phase} {e : Option Conn}
    (hon : v.On fd ph) (hon' : v'.On fd ph') (hconns : v'.conns = update v.conns fd e)
    (hat : ∀ c, e = some c → (c.writing = true ∨ ph' = some .write) →
      v.world.results c.origin = some ⟨c.writeBuf, c.keepAlive⟩) :
    v'.Each fun _ _ c ph => (c.writing = true ∨ ph = some .write) →
      v.world.results c.origin = some ⟨c.writeBuf, c.keepAlive⟩ :=
  View.Each.update (P := fun _ _ c ph => (c.writing = true ∨ ph = some .write) →
    v.world.results c.origin = some ⟨c.writeBuf, c.keepAlive⟩) h.response hon hon' hconns
    (fun _ _ _ _ hresp => hresp) hat

theorem Recorded.dispatched (h : Recorded v) {fd : Fd} {c : Conn} {n : Nat}
    (hf : v.focus = some (fd, .serve)) (hc : v.conns fd = some c) :
    Recorded (((v.setWorld (v.world.enqueue fd c.id (c.buf.take n))).setConn fd
      { c with dispatched := true, buf := c.buf.drop n }).look none) := by
  set w := v.world.enqueue fd c.id (c.buf.take n) with hw
  have hperm := World.tokens_enqueue v.world fd c.id (c.buf.take n)
  have hpre (k : ConnId) : v.world.requests k <+: w.requests k := by
    by_cases hk : k = c.id
    · subst hk; simp [hw, World.enqueue]
    · simp [hw, World.enqueue, hk]
  have hlt (o : Origin) (ho : o.index < (v.world.requests o.conn).length) :
      o.index < (w.requests o.conn).length := Nat.lt_of_lt_of_le ho (hpre o.conn).length_le
  have hlast : (w.requests c.id)[(v.world.requests c.id).length]? = some (c.buf.take n) := by
    simp [hw, World.enqueue]
  have hnew : v.world.results ⟨c.id, (v.world.requests c.id).length⟩ = none := by
    rw [Option.eq_none_iff_forall_ne_some]
    intro r hr
    exact Nat.lt_irrefl _ (h.result_lt _ r hr)
  exact {
    origins := by
      refine ((hperm.map Prod.snd).nodup_iff).mpr (nodup_cons.mpr ⟨fun hmem => ?_, h.origins⟩)
      obtain ⟨t, ht, hto⟩ := mem_map.mp hmem
      have := h.index_lt t ht
      rw [hto] at this
      exact Nat.lt_irrefl _ this
    index_lt := fun t ht => by
      rcases List.mem_cons.mp (hperm.subset ht) with rfl | ht
      · exact (List.getElem?_eq_some_iff.mp hlast).1
      · exact hlt _ (h.index_lt t ht)
    job := fun j hj => by
      have hcases : v.world.Pending j ∨
          j = ⟨fd, c.buf.take n, ⟨c.id, (v.world.requests c.id).length⟩⟩ := by
        rcases hj with hj | hj
        · rcases mem_append.mp hj with hj | hj
          · exact .inl (.inl hj)
          · exact .inr (mem_singleton.mp hj)
        · exact .inl (.inr hj)
      rcases hcases with hj | rfl
      · obtain ⟨hreq, hres⟩ := h.job j hj
        obtain ⟨hi, hget⟩ := List.getElem?_eq_some_iff.mp hreq
        refine ⟨?_, hres⟩
        rw [← hget]
        exact prefix_iff_getElem?.mp (hpre _) _ hi
      · exact ⟨hlast, hnew⟩
    result_lt := fun o r hr => hlt o (h.result_lt o r hr)
    handback := h.handback
    response := h.response_at (View.on_some hf) (View.on_none rfl) rfl fun d hd hw => by
      cases hd
      exact h.response fd c hc (.inl (by simpa using hw))
    sent := h.sent }

theorem Recorded.init : Recorded .init where
  origins := nodup_nil
  index_lt := by simp [World.init, World.tokens]
  job := by simp [World.init, World.Pending]
  result_lt := by simp [World.init]
  handback := by simp [World.init]
  response := by simp
  sent := by simp [World.init]

theorem Recorded.move (h : Recorded v) (hmove : Move cfg A v v') : Recorded v' := by
  cases hmove with
  | env | goto | poll | stopOutbox | skip =>
    exact h.keep ⟨rfl, rfl, rfl, rfl, rfl⟩ h.response h.sent
  | arrive fd bs harr =>
    have htx := World.arrive_tx harr
    obtain ⟨c, -, rfl⟩ := World.arrive_eq harr
    exact h.keep ⟨rfl, rfl, rfl, rfl, rfl⟩ h.response fun k e he => h.sent k e (htx k ▸ he)
  | hangup fd hhang =>
    have htx := World.hangup_tx hhang
    obtain ⟨c, -, rfl⟩ := World.hangup_eq hhang
    exact h.keep ⟨rfl, rfl, rfl, rfl, rfl⟩ h.response fun k e he => h.sent k e (htx k ▸ he)
  | start job rest hq =>
    refine h.frame (World.tokens_start hq).subperm (fun j hj => ?_) (fun _ hb => hb) rfl rfl
      h.response h.sent
    rcases hj with hj | hj
    · exact .inl (hq ▸ mem_cons_of_mem _ hj)
    · rcases mem_append.mp hj with hj | hj
      · exact .inr hj
      · cases mem_singleton.mp hj
        exact .inl (hq ▸ mem_cons_self)
  | die i job hi =>
    exact h.frame (subperm_of_perm_cons (World.tokens_eraseIdx hi))
      (fun _ hj => hj.imp_right (eraseIdx_subset ·)) (fun _ hb => hb) rfl rfl h.response h.sent
  | handback i job r hi =>
    refine h.finish hi (World.tokens_handback hi r) (fun _ hj => hj) (fun hb hhb => ?_) rfl rfl rfl
    exact (mem_append.mp hhb).imp_right mem_singleton.mp
  | reject i job r hi =>
    refine h.finish hi (.of_eq (World.tokens_set (.closing job) hi rfl)) (fun j hj => ?_)
      (fun _ hb => .inl hb) rfl rfl rfl
    refine hj.imp_right fun hj => ?_
    obtain ⟨hlt, -⟩ := List.getElem?_eq_some_iff.mp hi
    rcases List.mem_cons.mp ((List.set_perm_cons_eraseIdx hlt _).subset hj) with hj | hj
    · cases hj
    · exact hj
  | discard hb rest hf hout =>
    exact h.frame (subperm_of_perm_cons (World.tokens_pop hout)) (fun _ hj => hj)
      (fun b hb => hout ▸ mem_cons_of_mem _ hb) rfl rfl h.response h.sent
  | closeRejected i job hi =>
    exact h.frame (subperm_of_perm_cons (World.tokens_eraseIdx hi))
      (fun _ hj => hj.imp_right (eraseIdx_subset ·)) (fun _ hb => hb) rfl rfl h.response h.sent
  | take e evs c ph hf hpc hc hph =>
    refine h.keep ⟨rfl, rfl, rfl, rfl, rfl⟩ (h.response_at (View.on_none hf) (View.on_some rfl)
      (v.same_entry e.fd) fun d hd hw => ?_) h.sent
    refine h.response e.fd d hd (.inl ?_)
    rcases hw with hw | hw
    · exact hw
    · cases Option.some.inj hw
      cases hc.symm.trans hd
      exact hph
  | deny hb rest c hf hout hc =>
    refine h.frame (subperm_of_perm_cons (World.tokens_pop hout)) (fun _ hj => hj)
      (fun b hb => hout ▸ mem_cons_of_mem _ hb) rfl rfl
      (h.response_at (View.on_none hf) (View.on_some rfl) (v.same_entry hb.fd)
        fun d hd hw => ?_) h.sent
    exact h.response hb.fd d hd (.inl (by simpa using hw))
  | answer hb rest c hf hout hc =>
    refine h.frame (subperm_of_perm_cons (World.tokens_pop hout)) (fun _ hj => hj)
      (fun b hb => hout ▸ mem_cons_of_mem _ hb) rfl rfl
      (h.response_at (View.on_none hf) (View.on_some rfl) rfl fun d hd _ => ?_) h.sent
    cases hd
    exact h.handback hb (hout ▸ mem_cons_self)
  | consume fd c bs hf hc hread =>
    refine h.keep (World.sysRead_sameWork hread) (h.response_at (View.on_some hf) (View.on_some hf)
      rfl fun d hd hw => ?_) fun j e he => h.sent j e (World.sysRead_tx hread j ▸ he)
    cases hd
    exact h.response fd c hc (.inl (by simpa using hw))
  | emit fd c n hf hc hwrite =>
    have hresp := h.response fd c hc (.inr (View.on_some hf).phase)
    obtain ⟨k, hk, -, -, rfl⟩ := World.sysWrite_wrote hwrite
    refine h.keep ⟨rfl, rfl, rfl, rfl, rfl⟩ (h.response_at (View.on_some hf) (View.on_some hf)
      rfl fun d hd hw => ?_) fun j e he => ?_
    · cases hd
      exact hresp
    · by_cases hj : j = k
      · subst hj
        simp only [View.setConn_world, View.setWorld_world, World.setSock, update_self,
          mem_append, mem_singleton] at he
        rcases he with he | rfl
        · exact h.sent j e he
        · exact ⟨_, hresp, (List.take_prefix _ _).isInfix.trans (drop_suffix _ _).isInfix⟩
      · exact h.sent j e (by simpa [World.setSock, hj] using he)
  | park fd c ok hf hc =>
    refine h.keep (World.sameWork_arm _ _ _ _) (h.response_at (View.on_some hf) (View.on_none rfl)
      rfl fun d hd hw => ?_) (by simpa using h.sent)
    cases hd
    exact h.response fd c hc (.inr (View.on_some hf).phase)
  | turn fd c ok hf hc =>
    refine h.keep (World.sameWork_arm _ _ _ _) (h.response_at (View.on_some hf) (View.on_some rfl)
      rfl fun d hd hw => ?_) (by simpa using h.sent)
    cases hd
    simp at hw
  | rest fd c k hf hc =>
    refine h.keep ⟨rfl, rfl, rfl, rfl, rfl⟩ (h.response_at (View.on_some hf) (View.on_none rfl)
      (v.same_entry fd) fun d hd hw => ?_) h.sent
    exact h.response fd d hd (.inl (by simpa using hw))
  | close fd c hf hc =>
    obtain ⟨ph, hon⟩ := View.on_of_close hf
    exact h.keep ⟨rfl, rfl, rfl, rfl, rfl⟩
      (h.response_at hon (View.on_none rfl) rfl (by simp)) h.sent
  | refuse fd => exact h.keep ⟨rfl, rfl, rfl, rfl, rfl⟩ h.response h.sent
  | enroll fd hfd hlisten hf hc =>
    refine h.keep ((World.sameWork_opened _ _).trans (World.sameWork_arm _ _ _ _))
      (h.response_at (View.on_none hf) (View.on_none hf) rfl fun d hd hw => ?_)
      fun k e he => h.sent k e (by simpa [World.opened] using he)
    cases hd
    simp at hw
  | clash fd c =>
    exact h.keep ((World.sameWork_opened _ _).trans (World.sameWork_arm _ _ _ _)) h.response
      fun k e he => h.sent k e (by simpa [World.opened] using he)
  | misfit fd hfd hf =>
    exact h.keep ⟨rfl, rfl, rfl, rfl, rfl⟩
      (h.response_at (View.on_none hf) (View.on_none hf) rfl (by simp)) h.sent
  | dispatch fd c n hf hc => exact h.dispatched hf hc

end Reactor

end Muses
