import Muses.BoundedQueue.RingWakeups
import Muses.Logger

/-!
# What `flush` promises

`flush` drains the queue into the buffer, takes the buffer and writes it. What it does not look for
are the entries on their way between these places: one that the writer or another `flush` has
popped and not yet put into the buffer, a text that was taken from the buffer and not yet written,
and the entries behind one that is claimed and not yet published.

* `Diary` — a run with the `log` calls that have returned, and the position each has claimed;
* `Truthful` — what the diary says is what the queue has in its books.
-/

namespace Muses.Logger

open Muses.Core Function List

/-! ## The diary of a run -/

/-- A run with its calls of `log`: the entry, and the ticket once it has one. -/
structure Diary (C : Type*) where
  state : State C
  current : C → Option (Entry × Option Nat)
  returned : List (Entry × Option Nat)

def Diary.init {C : Type*} : Diary C := ⟨.init, fun _ => none, []⟩

section

variable {C : Type*} [DecidableEq C]

def Diary.note (d : Diary C) (l : Thread C × Act) (s' : State C) : Diary C :=
  match l with
  | (.client c, .log e) => ⟨s', update d.current c (some (e, none)), d.returned⟩
  | (.client c, .go _) =>
      if d.state.pc (.client c) = .logging ∧ s'.pc (.client c) = .out then
        ⟨s', d.current, d.returned ++ (d.current c).toList⟩
      else if s'.queue.claims.length = d.state.queue.claims.length then { d with state := s' }
      else
        ⟨s', update d.current c
          ((d.current c).map fun call => (call.1, some d.state.queue.claims.length)), d.returned⟩
  | _ => { d with state := s' }

def Diary.step (cfg : Config) (d : Diary C) (l : Thread C × Act) : Option (Diary C) :=
  (Logger.step cfg d.state l).map (d.note l)

/-- The call's entry has the call's ticket in the queue. -/
def Entered (q : RingImpl.State (Thread C) Entry) (call : Entry × Option Nat) : Prop :=
  ∃ pos, call.2 = some pos ∧ q.claims[pos]? = some call.1

/-- The diary says of every call of `log` what has become of its entry. -/
structure Truthful (cfg : Config) (d : Diary C) : Prop where
  kept : Kept cfg d.state
  owning : d.state.pc .owner = .owning
  running : d.state.queue.stopped = false
  entered : ∀ call ∈ d.returned, Entered d.state.queue call
  once : (d.returned.map Prod.snd).Nodup
  current : ∀ c, d.state.pc (.client c) = .logging → ∃ call, d.current c = some call ∧
    (d.state.queue.pc (.client c)).Pushes call.1 call.2 ∧
    (call.2 ≠ none → Entered d.state.queue call ∧ call.2 ∉ d.returned.map Prod.snd)
  apart : ∀ c c' call call', d.state.pc (.client c) = .logging →
    d.state.pc (.client c') = .logging → d.current c = some call → d.current c' = some call' →
    call.2 = call'.2 → call.2 ≠ none → c = c'

variable {cfg : Config} {s s' : State C} {t : Thread C} {d d' : Diary C}

variable {q : RingImpl.State (Thread C) Entry} {flag : Bool} {l : Thread C × Act}

omit [DecidableEq C] in
theorem Entered.mono {q' : RingImpl.State (Thread C) Entry} {call : Entry × Option Nat}
    (h : Entered q call) (hclaims : q.claims <+: q'.claims) : Entered q' call := by
  obtain ⟨pos, hpos, hitem⟩ := h
  obtain ⟨more, hmore⟩ := hclaims
  refine ⟨pos, hpos, ?_⟩
  rw [← hmore, List.getElem?_append_left (List.getElem?_eq_some_iff.mp hitem).1]
  exact hitem

theorem truthful_init : Truthful cfg (Diary.init : Diary C) where
  kept := kept_init
  owning := rfl
  running := rfl
  entered := by simp [Diary.init]
  once := by simp [Diary.init]
  current c hc := by cases hc
  apart c c' call call' hc := by cases hc

/-- A thread outside `log` takes entries out of the queue, or is in no call of it. The destructor
is another matter. -/
theorem Kept.takes_or_idle (h : Kept cfg s) (howner : t ≠ .owner) (hlog : s.pc t ≠ .logging) :
    (s.queue.pc t).takes = true ∨ ∃ r, s.queue.pc t = .idle r := by
  have htune := h.inTune t
  have hbelongs := h.belongs t
  cases hpc : s.pc t <;> rw [hpc] at htune hlog hbelongs
  case logging => exact absurd rfl hlog
  case stopping =>
    cases t with
    | owner => exact absurd rfl howner
    | client c | writer => cases hbelongs
  case flushPop | drainPop | waitPop => exact Or.inl htune
  all_goals exact Or.inr htune

theorem Turn.claims (hturn : Turn cfg s t s')
    (hidle : (s.queue.pc t).takes = true ∨ ∃ r, s.queue.pc t = .idle r) :
    s'.queue.claims = s.queue.claims ∧ s'.queue.stopped = s.queue.stopped := by
  rcases hturn.queue with heq | ⟨a, ha⟩
  · rw [heq]
    exact ⟨rfl, rfl⟩
  · exact RingImpl.claims_of_takes hidle ha

theorem Kept.clientStep (h : Kept cfg s) {c : C}
    (hstep : advance cfg s (.client c) flag = some s') :
    clientStep cfg s (.client c) flag (s.pc (.client c)) = some s' := by
  have hbelongs := h.belongs (.client c)
  cases hpc : s.pc (.client c) <;> rw [hpc] at hbelongs <;> try cases hbelongs
  all_goals
    simpa only [advance, hpc, drainStep, writerStep, destroyStep, Option.or_none] using hstep

theorem onQueue_pc {m : State C} {a : RingImpl.Act Entry} {c : Pc}
    (h : m.onQueue cfg t a c = some s') : s'.pc t = c := by
  obtain ⟨q, -, rfl⟩ := Option.map_eq_some_iff.mp h
  exact setPc_pc_self ..

theorem clientStep_pc_ne {c : Pc} (h : clientStep cfg s t flag c = some s') (hlog : c ≠ .logging) :
    s'.pc t ≠ .logging := by
  cases c <;> simp only [clientStep, reduceCtorEq] at h
  case logging => exact absurd rfl hlog
  all_goals
    repeat' split at h
    all_goals first
      | cases h; done
      | rw [onQueue_pc h]; simp
      | cases h; rw [setPc_pc_self]; simp

namespace Truthful

theorem frame (h : Truthful cfg d) (hturn : Turn cfg d.state t s') (hpc : s'.pc t ≠ .logging)
    (howner : t ≠ .owner)
    (hidle : (d.state.queue.pc t).takes = true ∨ ∃ r, d.state.queue.pc t = .idle r) :
    Truthful cfg { d with state := s' } := by
  obtain ⟨hclaims, hstopped⟩ := hturn.claims hidle
  have hother {c : C} (hc : s'.pc (.client c) = .logging) : .client c ≠ t := by
    rintro rfl
    exact hpc hc
  have hentered {call : Entry × Option Nat} (hcall : Entered d.state.queue call) :
      Entered s'.queue call := hcall.mono (by rw [hclaims])
  refine ⟨h.kept.turn hturn, (hturn.others .owner howner.symm).trans h.owning,
    hstopped.trans h.running, fun call hcall => hentered (h.entered call hcall), h.once,
    fun c hc => ?_, fun c c' call call' hc hc' => ?_⟩
  · have hne := hother hc
    obtain ⟨call, hcall, hpush, hwon⟩ := h.current c ((hturn.others _ hne).symm.trans hc)
    refine ⟨call, hcall, ?_, fun hsome => ⟨hentered (hwon hsome).1, (hwon hsome).2⟩⟩
    show (s'.queue.pc (.client c)).Pushes call.1 call.2
    rw [hturn.queue_others hne]
    exact hpush
  · exact h.apart c c' call call' ((hturn.others _ (hother hc)).symm.trans hc)
      ((hturn.others _ (hother hc')).symm.trans hc')

theorem update (h : Truthful cfg d) {c : C} (hturn : Turn cfg d.state (.client c) s')
    (hclaims : d.state.queue.claims <+: s'.queue.claims) (hstopped : s'.queue.stopped = false)
    {call : Entry × Option Nat} (hcall : s'.pc (.client c) = .logging →
      (s'.queue.pc (.client c)).Pushes call.1 call.2 ∧ (call.2 ≠ none → Entered s'.queue call ∧
        call.2 ∉ d.returned.map Prod.snd ∧ ∀ c' call', c' ≠ c → d.state.pc (.client c') = .logging →
          d.current c' = some call' → call'.2 ≠ call.2)) :
    Truthful cfg ⟨s', Function.update d.current c (some call), d.returned⟩ := by
  have hother {c' : C} (hc' : c' ≠ c) : s'.pc (.client c') = d.state.pc (.client c') :=
    hturn.others _ (by simpa using hc')
  refine ⟨h.kept.turn hturn, (hturn.others .owner nofun).trans h.owning, hstopped,
    fun x hx => (h.entered x hx).mono hclaims, h.once, fun c' hc' => ?_,
    fun c₁ c₂ call₁ call₂ hc₁ hc₂ hcall₁ hcall₂ heq hsome => ?_⟩
  · by_cases hcc : c' = c
    · subst hcc
      obtain ⟨hpush, hwon⟩ := hcall hc'
      exact ⟨call, update_self .., hpush,
        fun hsome => ⟨(hwon hsome).1, (hwon hsome).2.1⟩⟩
    · obtain ⟨x, hx, hpush, hwon⟩ := h.current c' ((hother hcc).symm.trans hc')
      refine ⟨x, (update_of_ne hcc ..).trans hx, ?_,
        fun hsome => ⟨(hwon hsome).1.mono hclaims, (hwon hsome).2⟩⟩
      show (s'.queue.pc (.client c')).Pushes x.1 x.2
      rw [hturn.queue_others (by simpa using hcc)]
      exact hpush
  · -- a position that is written down twice would be that of `c` and of another client
    by_cases h₁ : c₁ = c <;> by_cases h₂ : c₂ = c
    · rw [h₁, h₂]
    · subst h₁
      have hnew : call = call₁ := by simpa using hcall₁
      have hold : d.current c₂ = some call₂ := by simpa [h₂] using hcall₂
      subst hnew
      exact absurd heq.symm
        (((hcall hc₁).2 hsome).2.2 c₂ call₂ h₂ ((hother h₂).symm.trans hc₂) hold)
    · subst h₂
      have hnew : call = call₂ := by simpa using hcall₂
      have hold : d.current c₁ = some call₁ := by simpa [h₁] using hcall₁
      subst hnew
      exact absurd heq
        (((hcall hc₂).2 (heq ▸ hsome)).2.2 c₁ call₁ h₁ ((hother h₁).symm.trans hc₁) hold)
    · exact h.apart c₁ c₂ call₁ call₂ ((hother h₁).symm.trans hc₁) ((hother h₂).symm.trans hc₂)
        (by simpa [h₁] using hcall₁) (by simpa [h₂] using hcall₂) heq hsome

theorem returns (h : Truthful cfg d) {c : C} (hpc : d.state.pc (.client c) = .logging)
    {out : Option Entry} (hreply : reply (d.state.queue.pc (.client c)) = some out)
    (hturn : Turn cfg d.state (.client c) (d.state.setPc (.client c) .out)) :
    Truthful cfg ⟨d.state.setPc (.client c) .out, d.current,
      d.returned ++ (d.current c).toList⟩ := by
  obtain ⟨call, hcall, hpush, hwon⟩ := h.current c hpc
  have hsome : call.2 ≠ none := by
    obtain ⟨⟨r, hr⟩, -⟩ := carries_of_reply hreply
    rw [hr] at hpush
    exact hpush.won_of_idle
  obtain ⟨hentered, hnew⟩ := hwon hsome
  have hother {c' : C} (hc' : (d.state.setPc (.client c) .out).pc (.client c') = .logging) :
      c' ≠ c ∧ d.state.pc (.client c') = .logging := by
    by_cases hcc : c' = c
    · subst hcc
      rw [setPc_pc_self] at hc'
      cases hc'
    · exact ⟨hcc, (setPc_pc_of_ne _ _ (by simpa using hcc)).symm.trans hc'⟩
  rw [hcall]
  refine ⟨h.kept.turn hturn, h.owning, h.running, fun x hx => ?_, ?_, fun c' hc' => ?_,
    fun c₁ c₂ call₁ call₂ hc₁ hc₂ => ?_⟩
  · rcases mem_append.mp hx with hx | hx
    · exact h.entered x hx
    · cases mem_singleton.mp hx
      exact hentered
  · rw [map_append]
    refine nodup_append.mpr ⟨h.once, by simp, fun x hx y hy heq => hnew ?_⟩
    obtain rfl : y = call.2 := by simpa using hy
    exact heq ▸ hx
  · obtain ⟨hne, hlog⟩ := hother hc'
    obtain ⟨x, hx, hpush', hwon'⟩ := h.current c' hlog
    refine ⟨x, hx, hpush', fun hx' => ⟨(hwon' hx').1, fun hmem => ?_⟩⟩
    rw [map_append] at hmem
    rcases mem_append.mp hmem with hmem | hmem
    · exact (hwon' hx').2 hmem
    · exact hne (h.apart c' c x call hlog hpc hx hcall (mem_singleton.mp hmem) hx')
  · exact h.apart c₁ c₂ call₁ call₂ (hother hc₁).2 (hother hc₂).2

theorem pushes (hp : 2 ≤ cfg.ring.slots) (h : Truthful cfg d) {c : C}
    (hpc : d.state.pc (.client c) = .logging) {flag : Bool}
    (hturn : Turn cfg d.state (.client c) s')
    (hstep : d.state.onQueue cfg (.client c) (.go flag) .logging = some s') :
    Truthful cfg (d.note (.client c, .go flag) s') := by
  obtain ⟨call, hcall, hpush, hwon⟩ := h.current c hpc
  have hpc' : s'.pc (.client c) = .logging := onQueue_pc hstep
  obtain ⟨q, hq, hmade⟩ := Option.map_eq_some_iff.mp hstep
  obtain rfl : q = s'.queue := by rw [← hmade]; rfl
  have hlen : d.state.queue.claims.length = d.state.queue.enqueuePos :=
    (h.kept.sighted hp).inv.put_length
  have hpolicy : cfg.ring.policy ≠ .dropNew := nofun
  obtain ⟨hrunning, hclaims⟩ := RingImpl.go_claimed hpolicy hlen h.running hpush hq
  have hstill : ¬ (d.state.pc (.client c) = .logging ∧ s'.pc (.client c) = .out) := by
    rw [hpc']
    simp
  simp only [Diary.note, hstill, if_false]
  rcases hclaims with ⟨hsame, hpush'⟩ | ⟨hnone, hmore, hpush'⟩
  · have hkept : d.current = Function.update d.current c (some call) := by
      rw [← hcall, update_eq_self]
    rw [if_pos (congrArg List.length hsame)]
    have hprefix : d.state.queue.claims <+: s'.queue.claims := by rw [hsame]
    have hupdate := h.update hturn hprefix (hrunning.trans h.running) fun _ =>
      ⟨hpush', fun hsome => ⟨(hwon hsome).1.mono hprefix, (hwon hsome).2,
        fun c' call' hne hlog hcall' heq =>
          hne (h.apart c' c call' call hlog hpc hcall' hcall heq (heq ▸ hsome))⟩⟩
    rw [← hkept] at hupdate
    exact hupdate
  · -- the position is new, and so nobody else's
    have hlonger : s'.queue.claims.length ≠ d.state.queue.claims.length := by
      rw [hmore, length_append]
      simp
    have hfresh {x : Entry × Option Nat} (hx : Entered d.state.queue x) :
        x.2 ≠ some d.state.queue.claims.length := by
      obtain ⟨pos, hpos, hitem⟩ := hx
      have hlt := (List.getElem?_eq_some_iff.mp hitem).1
      rw [hpos, Ne, Option.some.injEq]
      omega
    rw [if_neg hlonger, hcall]
    refine h.update hturn (hmore ▸ prefix_append _ _) (hrunning.trans h.running) fun _ =>
      ⟨hpush', fun _ => ⟨⟨_, rfl, ?_⟩, fun hmem => ?_, fun c' call' hne hlog hcall' heq => ?_⟩⟩
    · simp [hmore]
    · obtain ⟨x, hx, hpos⟩ := mem_map.mp hmem
      exact hfresh (h.entered x hx) hpos
    · obtain ⟨x, hx, -, hwon'⟩ := h.current c' hlog
      cases hcall'.symm.trans hx
      exact hfresh (hwon' (by rw [heq]; nofun)).1 heq

theorem step (hp : 2 ≤ cfg.ring.slots) (h : Truthful cfg d) {l : Thread C × Act}
    (hl : l.2 ≠ .destroy) (hstep : Diary.step cfg d l = some d') : Truthful cfg d' := by
  obtain ⟨s', hs', rfl⟩ := Option.map_eq_some_iff.mp hstep
  have hturn := step_turn (h.kept.belongs l.1) (h.kept.inTune l.1) hs'
  obtain ⟨t, a⟩ := l
  cases t with
  | writer =>
    cases a with
    | log e | flush => cases hs'
    | destroy => exact absurd rfl hl
    | go flag =>
      -- the writer gets nowhere near `log`
      have hnever {m : State C} (hbelongs : (m.pc .writer).belongs (.writer : Thread C) = true) :
          m.pc .writer ≠ .logging := by
        intro hpc
        rw [hpc] at hbelongs
        cases hbelongs
      exact h.frame hturn (hnever hturn.belongs) (by simp)
        (h.kept.takes_or_idle (by simp) (hnever (h.kept.belongs .writer)))
  | owner =>
    cases a with
    | log e | flush => cases hs'
    | destroy => exact absurd rfl hl
    | go flag =>
      replace hs' : advance cfg d.state .owner flag = some s' := hs'
      simp [advance, h.owning, clientStep, drainStep, writerStep, destroyStep] at hs'
  | client c =>
    cases a with
    | destroy => exact absurd rfl hl
    | flush =>
      obtain ⟨hpc, hs'⟩ := Option.ite_none_right_eq_some.mp hs'
      exact h.frame hturn (by simp [onQueue_pc hs']) (by simp)
        (h.kept.takes_or_idle (by simp) (by simp [hpc]))
    | log e =>
      obtain ⟨hpc, hs'⟩ := Option.ite_none_right_eq_some.mp hs'
      obtain ⟨hclaims, hstopped⟩ :=
        hturn.claims (h.kept.takes_or_idle (by simp) (by simp [hpc]))
      refine h.update hturn (by rw [hclaims]) (hstopped.trans h.running) fun hlog => ?_
      split at hs'
      · -- below the level: the client is not in the queue
        cases hs'
        rw [hpc] at hlog
        cases hlog
      · obtain ⟨q, hq, hmade⟩ := Option.map_eq_some_iff.mp hs'
        obtain rfl : q = s'.queue := by rw [← hmade]; rfl
        have hentry : s'.queue.pc (.client c) = .pushCheck e := RingImpl.pc_of_call hq
        rw [hentry]
        exact ⟨⟨rfl, rfl⟩, fun hsome => absurd rfl hsome⟩
    | go flag =>
      have hclient := h.kept.clientStep hs'
      by_cases hpc : d.state.pc (.client c) = .logging
      · rw [hpc] at hclient
        simp only [Logger.clientStep] at hclient
        split at hclient
        · rename_i hreply
          cases hclient
          have hreturns := h.returns hpc hreply hturn
          simpa only [Diary.note, hpc, setPc_pc_self, and_self, if_true] using hreturns
        · exact h.pushes hp hpc hturn hclient
      · have hidle := h.kept.takes_or_idle (t := .client c) (by simp) hpc
        have hframe := h.frame hturn (clientStep_pc_ne hclient hpc) (by simp) hidle
        have hclaims := congrArg List.length (hturn.claims hidle).1
        simpa only [Diary.note, hpc, false_and, if_false, hclaims, if_true] using hframe

end Truthful

theorem run_truthful (hp : 2 ≤ cfg.ring.slots) {run : List (Thread C × Act)}
    (hrun : exec (Diary.step cfg) .init run = some d) (hdestroy : ∀ l ∈ run, l.2 ≠ .destroy) :
    Truthful cfg d :=
  exec_invariant_of_meets (fun _ _ _ h hl hstep => h.step hp hl hstep) truthful_init
    (meets_of_mem Diary.init hdestroy) hrun

/-! ## Entries that were evicted, and those that were not -/

def evicted (q : RingImpl.State (Thread C) Entry) : Option Nat → Bool
  | some pos => decide ((pos, RingImpl.Departure.evicted) ∈ q.departures)
  | none => false

def unevicted (q : RingImpl.State (Thread C) Entry) (calls : List (Entry × Option Nat)) :
    List Entry :=
  (calls.filter fun call => !evicted q call.2).map Prod.fst

/-- The calls have entered their entries, each one once. -/
structure Recorded (q : RingImpl.State (Thread C) Entry) (calls : List (Entry × Option Nat)) :
    Prop where
  entered : ∀ call ∈ calls, Entered q call
  once : (calls.map Prod.snd).Nodup

/-- The entries of the calls have left the queue. -/
def Gone (q : RingImpl.State (Thread C) Entry) (calls : List (Entry × Option Nat)) : Prop :=
  ∀ call ∈ calls, ∀ pos, call.2 = some pos → pos < q.dequeuePos

section

omit [DecidableEq C]

variable {q q' : RingImpl.State (Thread C) Entry} {calls : List (Entry × Option Nat)}

theorem evicted_eq_true {call : Entry × Option Nat} : evicted q call.2 = true ↔
    ∃ pos, call.2 = some pos ∧ (pos, RingImpl.Departure.evicted) ∈ q.departures := by
  cases call.2 with
  | none => simp [evicted]
  | some pos => simp [evicted]

theorem unevicted_le (hdep : q.departures <+: q'.departures) :
    (unevicted q' calls : Multiset Entry) ≤ unevicted q calls := by
  apply Multiset.coe_le.mpr
  apply List.Sublist.subperm
  apply List.Sublist.map
  apply monotone_filter_right
  intro call hkept
  rw [Bool.not_eq_true', ← Bool.not_eq_true, evicted_eq_true] at hkept ⊢
  rintro ⟨pos, hpos, hmem⟩
  exact hkept ⟨pos, hpos, hdep.subset hmem⟩

theorem Recorded.mono (h : Recorded q calls) (hclaims : q.claims <+: q'.claims) :
    Recorded q' calls := ⟨fun call hcall => (h.entered call hcall).mono hclaims, h.once⟩

theorem unevicted_le_survivors (hdel : RingImpl.Delivered q) (hrec : Recorded q calls)
    (hgone : Gone q calls) : (unevicted q calls : Multiset Entry) ≤ q.survivors := by
  -- compare positions: those of the calls are distinct, and all of them were popped
  have hsub : (calls.filter fun call => !evicted q call.2).map Prod.snd ⊆
      (q.departures.filter fun x => x.2 = .popped).map fun x => some x.1 := by
    intro o ho
    obtain ⟨call, hcall, rfl⟩ := mem_map.mp ho
    obtain ⟨hmem, hkept⟩ := mem_filter.mp hcall
    obtain ⟨pos, hpos, -⟩ := hrec.entered call hmem
    have hdeparted : pos ∈ q.departures.map Prod.fst := by
      rw [hdel.positions]
      exact mem_range.mpr (hgone call hmem pos hpos)
    obtain ⟨⟨pos, kind⟩, hdep, rfl⟩ := mem_map.mp hdeparted
    have hkind : kind = .popped := by
      cases kind with
      | popped => rfl
      | evicted =>
        rw [Bool.not_eq_true', ← Bool.not_eq_true, evicted_eq_true] at hkept
        exact absurd ⟨pos, hpos, hdep⟩ hkept
    exact mem_map.mpr ⟨(pos, kind), mem_filter.mpr ⟨hdep, by simp [hkind]⟩, hpos.symm⟩
  have honce : ((calls.filter fun call => !evicted q call.2).map Prod.snd).Nodup :=
    hrec.once.sublist (filter_sublist.map Prod.snd)
  have hle := Multiset.filterMap_le_filterMap (fun o : Option Nat => o.bind (q.claims[·]?))
    (Multiset.coe_le.mpr (honce.subperm hsub))
  rw [Multiset.filterMap_coe, Multiset.filterMap_coe, filterMap_map, filterMap_map] at hle
  have hitems : unevicted q calls = (calls.filter fun call => !evicted q call.2).filterMap
      ((fun o : Option Nat => o.bind (q.claims[·]?)) ∘ Prod.snd) := by
    rw [unevicted, ← filterMap_eq_map]
    refine filterMap_congr fun call hcall => ?_
    obtain ⟨pos, hpos, hitem⟩ := hrec.entered call (mem_filter.mp hcall).1
    simp [hpos, hitem]
  rw [hitems]
  exact hle

end

/-! ## A `flush` on its way -/

/-- The thread holds no entry. -/
def Pc.EmptyHanded (q : RingImpl.Pc Entry) : Pc → Prop
  | .flushPop | .drainPop _ | .waitPop => q.carries = none ∧ q.awaits = none
  | .flushLine _ | .line _ => False
  | .flushWrite toWrite | .write _ toWrite => toWrite = []
  | _ => True

instance (q : RingImpl.Pc Entry) (c : Pc) : Decidable (c.EmptyHanded q) := by
  unfold Pc.EmptyHanded
  split <;> infer_instance

/-- The `flush` of client `c` meets nothing on its way: when it looks at a cell of the queue, nobody
is about to publish it, and when it takes the buffer, nobody else has an entry in their hands. -/
def Calm (c : C) (s : State C) (l : Thread C × Act) : Prop :=
  l.1 = .client c →
    (match s.queue.pc (.client c) with
      | .popLoadSeq _ pos => ∀ t, (s.queue.pc t).publishing ≠ some pos
      | _ => True) ∧
    (s.pc (.client c) = .flushSwap → ∀ t, t ≠ .client c → (s.pc t).EmptyHanded (s.queue.pc t))

instance [Fintype C] (P : Thread C → Prop) [DecidablePred P] : Decidable (∀ t, P t) :=
  decidable_of_iff (P .writer ∧ P .owner ∧ ∀ c, P (.client c))
    ⟨fun h t => by
      cases t with
      | client c => exact h.2.2 c
      | writer => exact h.1
      | owner => exact h.2.1,
    fun h => ⟨h .writer, h .owner, fun c => h (.client c)⟩⟩

instance [Fintype C] (c : C) (s : State C) (l : Thread C × Act) : Decidable (Calm c s l) := by
  unfold Calm
  have : Decidable (match s.queue.pc (.client c) with
      | .popLoadSeq _ pos => ∀ t, (s.queue.pc t).publishing ≠ some pos
      | _ => True) := by
    split <;> infer_instance
  infer_instance

variable {calls : List (Entry × Option Nat)} {c : C}

/-- The entries of the calls are in the file, those apart that were evicted. -/
def Durable (cfg : Config) (calls : List (Entry × Option Nat)) (s : State C) : Prop :=
  ∃ written : List Entry, s.file = text cfg written ∧
    (unevicted s.queue calls : Multiset Entry) ≤ written

/-- What a `flush` has achieved where it stands: with an empty queue it has everything behind it,
and the text it is about to write makes it durable. -/
def Pc.Flushing (cfg : Config) (calls : List (Entry × Option Nat)) (c : C) (s : State C) : Pc → Prop
  | .flushPop => reply (s.queue.pc (.client c)) = some none → Gone s.queue calls
  | .flushLine _ => True
  | .flushSwap => Gone s.queue calls
  | .flushWrite toWrite => ∃ held written : List Entry, toWrite = text cfg held ∧
      s.file = text cfg written ∧ (unevicted s.queue calls : Multiset Entry) ≤ ↑(written ++ held)
  | _ => False

theorem Turn.history (hturn : Turn cfg s t s') : s.queue.claims <+: s'.queue.claims ∧
    s.queue.departures <+: s'.queue.departures ∧ s.queue.dequeuePos ≤ s'.queue.dequeuePos := by
  rcases hturn.queue with heq | ⟨a, ha⟩
  · rw [heq]
    exact ⟨prefix_refl _, prefix_refl _, Nat.le_refl _⟩
  · exact RingImpl.step_history ha

theorem Kept.file (h : Kept cfg s) (hstep : Logger.step cfg s l = some s') :
    ∃ more : List Entry, s'.file = s.file ++ text cfg more := by
  have hnothing (hfile : s'.file = s.file) :
      ∃ more : List Entry, s'.file = s.file ++ text cfg more := ⟨[], by simp [hfile, text]⟩
  obtain ⟨t, a⟩ := l
  cases a with
  | go flag =>
    replace hstep : advance cfg s t flag = some s' := by
      cases t <;> exact hstep
    rcases (advance_onward hstep).file with hsame | ⟨toWrite, hpc, hfile⟩
    · exact hnothing hsame
    · obtain ⟨w, b, f, held, hold, -⟩ := h.ledger
      have hholds := (hold t).holds
      rcases hpc with hpc | ⟨stage, hpc⟩ <;> rw [hpc] at hholds <;>
        exact ⟨w t, by rw [hfile, show toWrite = _ from hholds]⟩
  | log e =>
    cases t <;> simp only [Logger.step, reduceCtorEq] at hstep
    obtain ⟨-, hstep⟩ := Option.ite_none_right_eq_some.mp hstep
    split at hstep
    · cases hstep
      exact hnothing rfl
    · exact hnothing (onQueue_fields hstep).2
  | flush =>
    cases t <;> simp only [Logger.step, reduceCtorEq] at hstep
    exact hnothing (onQueue_fields (Option.ite_none_right_eq_some.mp hstep).2).2
  | destroy =>
    cases t <;> simp only [Logger.step, reduceCtorEq] at hstep
    exact hnothing (onQueue_fields (Option.ite_none_right_eq_some.mp hstep).2).2

omit [DecidableEq C] in
theorem Gone.mono {q' : RingImpl.State (Thread C) Entry} (h : Gone q calls)
    (hle : q.dequeuePos ≤ q'.dequeuePos) : Gone q' calls :=
  fun call hcall pos hpos => Nat.lt_of_lt_of_le (h call hcall pos hpos) hle

theorem Durable.step (h : Durable cfg calls s) (hkept : Kept cfg s)
    (hstep : Logger.step cfg s l = some s') : Durable cfg calls s' := by
  obtain ⟨written, hfile, hle⟩ := h
  obtain ⟨more, hmore⟩ := hkept.file hstep
  have hturn := step_turn (hkept.belongs l.1) (hkept.inTune l.1) hstep
  refine ⟨written ++ more, by rw [hmore, hfile, text_append], ?_⟩
  calc (unevicted s'.queue calls : Multiset Entry)
      ≤ unevicted s.queue calls := unevicted_le hturn.history.2.1
    _ ≤ written := hle
    _ ≤ ↑(written ++ more) := Multiset.coe_le.mpr (sublist_append_left _ _).subperm

theorem flushing_others (hkept : Kept cfg s) (hstep : step cfg s l = some s')
    (hl : .client c ≠ l.1) (h : (s.pc (.client c)).Flushing cfg calls c s) :
    (s'.pc (.client c)).Flushing cfg calls c s' := by
  have hturn := step_turn (hkept.belongs l.1) (hkept.inTune l.1) hstep
  obtain ⟨-, hdep, hdeq⟩ := hturn.history
  rw [hturn.others _ hl]
  cases hpc : s.pc (.client c) <;> rw [hpc] at h
  case flushPop =>
    intro hreply
    rw [hturn.queue_others hl] at hreply
    exact (h hreply).mono hdeq
  case flushLine e => trivial
  case flushSwap => exact Gone.mono h hdeq
  case flushWrite toWrite =>
    obtain ⟨held, written, hheld, hfile, hle⟩ := h
    obtain ⟨more, hmore⟩ := hkept.file hstep
    refine ⟨held, written ++ more, hheld, by rw [hmore, hfile, text_append], ?_⟩
    calc (unevicted s'.queue calls : Multiset Entry)
        ≤ unevicted s.queue calls := unevicted_le hdep
      _ ≤ ↑(written ++ held) := hle
      _ ≤ ↑(written ++ more ++ held) := Multiset.coe_le.mpr
          ((sublist_append_left written more).append_right held).subperm
  all_goals cases h

omit [DecidableEq C] in
theorem awaits_of_not_takes {q : RingImpl.Pc Entry} (h : q.takes = false) : q.awaits = none := by
  cases q with
  | popMove k pos => cases h
  | _ => rfl

theorem Kept.nothing_in_hand (h : Kept cfg s) (hempty : (s.pc t).EmptyHanded (s.queue.pc t))
    {w : List Entry} (hholds : (s.pc t).Holds cfg (s.queue.pc t) w) :
    w = [] ∧ (s.queue.pc t).awaits = none := by
  have htune := h.inTune t
  have hidle (hr : ∃ r, s.queue.pc t = .idle r) : (s.queue.pc t).awaits = none := by
    obtain ⟨r, hr⟩ := hr
    rw [hr]
    rfl
  cases hpc : s.pc t <;> rw [hpc] at hempty hholds htune
  case flushLine | line => cases hempty
  case flushPop | drainPop | waitPop =>
    refine ⟨?_, hempty.2⟩
    rw [show w = _ from hholds, hempty.1]
    rfl
  case flushWrite | write =>
    have htext : text cfg w = [] := by
      rw [← show _ = text cfg w from hholds]
      exact hempty
    exact ⟨eq_nil_of_text htext, hidle htune⟩
  case logging | stopping => exact ⟨hholds, awaits_of_not_takes htune⟩
  all_goals exact ⟨hholds, hidle htune⟩

/-- **The buffer is taken.** With nothing in anybody's hands, every entry that was popped is in the
buffer or in the file. -/
theorem Kept.swap (hcap : 2 ≤ cfg.capacity) (h : Kept cfg s) (hrec : Recorded s.queue calls)
    (hgone : Gone s.queue calls) (hempty : ∀ t, (s.pc t).EmptyHanded (s.queue.pc t)) :
    ∃ b f, s.buffer = text cfg b ∧ s.file = text cfg f ∧
      (unevicted s.queue calls : Multiset Entry) ≤ ↑(f ++ b) := by
  obtain ⟨w, b, f, held, hold, htally, hsum⟩ := h.ledger
  have hhand (t : Thread C) := h.nothing_in_hand (hempty t) (hold t).holds
  obtain ⟨acts, hrun⟩ := h.reach
  have hdel := RingImpl.run_delivered (two_le_capacity hcap) hrun
  have hsurvivors := RingImpl.handed_perm_survivors hdel (RingImpl.run_served hrun)
    fun t => (hhand t).2
  have hheld : held = 0 := htally.eq_zero fun t => by rw [(hhand t).1]; rfl
  refine ⟨b, f, (hold .owner).buffer, (hold .owner).file, ?_⟩
  calc (unevicted s.queue calls : Multiset Entry)
      ≤ s.queue.survivors := unevicted_le_survivors hdel hrec hgone
    _ = s.queue.handedItems := Multiset.coe_eq_coe.mpr hsurvivors.symm
    _ = ↑(b ++ f) := by rw [hsum, hheld, zero_add]
    _ = ↑(f ++ b) := Multiset.coe_eq_coe.mpr perm_append_comm
    _ ≤ ↑(f ++ b) := le_refl _

theorem Kept.gone (hp : 2 ≤ cfg.ring.slots) (h : Kept cfg s) (hrec : Recorded s.queue calls)
    (hpc : s.pc (.client c) = .flushPop) (hcalm : Calm c s (.client c, .go flag))
    (hq : RingImpl.step cfg.ring s.queue (.client c, .go flag) = some q)
    (hreply : reply (q.pc (.client c)) = some none) : Gone q calls := by
  have htakes : (q.pc (.client c)).takes = true := by
    have htune := h.inTune (.client c)
    rw [hpc] at htune
    exact (RingImpl.go_carried hq).takes.trans htune
  have hnothing : q.pc (.client c) = .idle (some (.popped none)) := by
    obtain ⟨⟨r, hr⟩, hcarries⟩ := carries_of_reply hreply
    rw [hr] at htakes hcarries ⊢
    rcases r with _ | (ok | out | _)
    · cases htakes
    · cases htakes
    · cases out with
      | none => rfl
      | some e => cases hcarries
    · cases htakes
  obtain ⟨k, pos, hlook, hseq, hclaims, hdeq⟩ := RingImpl.found_nothing hq hnothing
  have hnobody := (hcalm rfl).1
  rw [hlook] at hnobody
  have hsighted := h.sighted hp
  have hempty := hsighted.empty_of_unpublished hp hlook hseq hnobody
  have hlen : s.queue.claims.length = s.queue.enqueuePos := hsighted.inv.put_length
  intro call hcall pos hpos
  obtain ⟨pos', hpos', hitem⟩ := hrec.entered call hcall
  cases hpos.symm.trans hpos'
  have hlt := (List.getElem?_eq_some_iff.mp hitem).1
  omega

theorem flushing_enter {m : State C} (h : m.onQueue cfg (.client c) .tryPop .flushPop = some s') :
    (s'.pc (.client c)).Flushing cfg calls c s' := by
  rw [onQueue_pc h]
  obtain ⟨q, hq, rfl⟩ := Option.map_eq_some_iff.mp h
  have hentry : q.pc (.client c) = .popLoadPos .tryPop := RingImpl.pc_of_call hq
  intro hreply
  replace hreply : reply (q.pc (.client c)) = some none := hreply
  rw [hentry] at hreply
  cases hreply

theorem flushing_own (hcap : 2 ≤ cfg.capacity) (hkept : Kept cfg s)
    (hrec : Recorded s.queue calls) (hcalm : Calm c s (.client c, .go flag))
    (h : (s.pc (.client c)).Flushing cfg calls c s)
    (hstep : advance cfg s (.client c) flag = some s') :
    Durable cfg calls s' ∨ (s'.pc (.client c)).Flushing cfg calls c s' := by
  have hp := RingImpl.Config.two_le_slots (two_le_capacity hcap)
  have hclient := hkept.clientStep hstep
  cases hpc : s.pc (.client c) <;> rw [hpc] at h hclient <;>
    simp only [clientStep, reduceCtorEq] at hclient
  case logging => cases h
  case flushPop =>
    right
    split at hclient
    · cases hclient
      rw [setPc_pc_self]
      trivial
    · rename_i hreply
      cases hclient
      rw [setPc_pc_self]
      exact h hreply
    · rw [onQueue_pc hclient]
      obtain ⟨q, hq, rfl⟩ := Option.map_eq_some_iff.mp hclient
      exact hkept.gone hp hrec hpc hcalm hq
  case flushLine e =>
    obtain ⟨-, hclient⟩ := Option.ite_none_right_eq_some.mp hclient
    exact Or.inr (flushing_enter hclient)
  case flushSwap =>
    right
    obtain ⟨-, hclient⟩ := Option.ite_none_right_eq_some.mp hclient
    cases hclient
    rw [setPc_pc_self]
    obtain ⟨b, f, hbuffer, hfile, hle⟩ := hkept.swap hcap hrec h fun t => by
      by_cases ht : t = .client c
      · rw [ht, hpc]
        trivial
      · exact (hcalm rfl).2 hpc t ht
    exact ⟨b, f, hbuffer, hfile, hle⟩
  case flushWrite toWrite =>
    left
    cases hclient
    obtain ⟨held, written, hheld, hfile, hle⟩ := h
    refine ⟨written ++ held, ?_, hle⟩
    show s.file ++ toWrite = _
    rw [hfile, hheld, text_append]

theorem exec_diary {run : List (Thread C × Act)} (hrun : exec (step cfg) .init run = some s) :
    ∃ d : Diary C, exec (Diary.step cfg) .init run = some d ∧ d.state = s := by
  have hsim : ∀ (d : Diary C) s l s', d.state = s → True → step cfg s l = some s' →
      ∃ d', Diary.step cfg d l = some d' ∧ d'.state = s' := by
    rintro d _ l s' rfl - hstep
    refine ⟨d.note l s', by simp [Diary.step, hstep], ?_⟩
    unfold Diary.note
    repeat' split
    all_goals rfl
  have hany : Meets (step cfg) (fun _ _ => True) .init run :=
    meets_of_forall (fun _ _ => trivial) _ _
  have hstart : (Diary.init : Diary C).state = .init := rfl
  exact exec_simulates hsim hstart hany hrun

theorem keeps_flushing (hcap : 2 ≤ cfg.capacity) (h : Kept cfg s ∧ Recorded s.queue calls ∧
      (Durable cfg calls s ∨ (s.pc (.client c)).Flushing cfg calls c s)) (hcalm : Calm c s l)
    (hstep : step cfg s l = some s') :
    Kept cfg s' ∧ Recorded s'.queue calls ∧
      (Durable cfg calls s' ∨ (s'.pc (.client c)).Flushing cfg calls c s') := by
  obtain ⟨hkept, hrec, hdone | hflushing⟩ := h <;>
    have hturn := step_turn (hkept.belongs l.1) (hkept.inTune l.1) hstep <;>
    refine ⟨hkept.step hstep, hrec.mono hturn.history.1, ?_⟩
  · exact Or.inl (hdone.step hkept hstep)
  · by_cases hl : .client c = l.1
    · obtain ⟨t, a⟩ := l
      subst hl
      cases a with
      | go flag => exact flushing_own hcap hkept hrec hcalm hflushing hstep
      | destroy => cases hstep
      | log e | flush =>
        -- a client in `flush` starts no call
        have hout := (Option.ite_none_right_eq_some.mp hstep).1
        rw [hout] at hflushing
        cases hflushing
    · exact Or.inr (flushing_others hkept hstep hl hflushing)

/-- **`flush` is durable, in a calm run.** In every run of any producers, the writer thread and
callers of `flush`, in whatever order their steps interleave: if a `flush` never looks at a cell
that somebody is about to publish, and takes the buffer while nobody else has an entry in their
hands, then every entry whose `log` call had returned when the `flush` began is in the file when it
has returned, or was evicted. Each of these calls has claimed a position of its own. -/
theorem flush_durable (hcap : 2 ≤ cfg.capacity) {before during : List (Thread C × Act)}
    {s₀ s₁ : State C} (hbefore : exec (step cfg) .init before = some s₀)
    (hdestroy : ∀ l ∈ before, l.2 ≠ .destroy) (hbegin : step cfg s₀ (.client c, .flush) = some s₁)
    (hduring : exec (step cfg) s₁ during = some s) (hcalm : Meets (step cfg) (Calm c) s₁ during)
    (hend : s.pc (.client c) = .out) :
    ∃ d : Diary C, exec (Diary.step cfg) .init before = some d ∧ d.state = s₀ ∧
      Recorded s₀.queue d.returned ∧
      ∃ written : List Entry, s.file = text cfg written ∧
        (unevicted s.queue d.returned : Multiset Entry) ≤ written := by
  have hp := RingImpl.Config.two_le_slots (two_le_capacity hcap)
  obtain ⟨d, hdiary, rfl⟩ := exec_diary hbefore
  have htruth := run_truthful hp hdiary hdestroy
  have hrec : Recorded d.state.queue d.returned := ⟨htruth.entered, htruth.once⟩
  refine ⟨d, hdiary, rfl, hrec, ?_⟩
  have hturn := step_turn (htruth.kept.belongs _) (htruth.kept.inTune _) hbegin
  have hfirst : (s₁.pc (.client c)).Flushing cfg d.returned c s₁ :=
    flushing_enter (Option.ite_none_right_eq_some.mp hbegin).2
  obtain ⟨-, -, hdone | hflushing⟩ := exec_invariant_of_meets
    (fun _ _ _ => keeps_flushing hcap)
    ⟨htruth.kept.step hbegin, hrec.mono hturn.history.1, Or.inr hfirst⟩ hcalm hduring
  · exact hdone
  · rw [hend] at hflushing
    cases hflushing

end

/-! ## Two runs -/

def loggedBesideWaiter : List (Thread Bool × Act) :=
  List.replicate 9 (.writer, .go false) ++
    (.client false, .log (saying 1)) :: List.replicate 8 (.client false, .go false)

theorem flush_durable_loggedBesideWaiter :
    ∃ s₀ ∈ exec (step .sample) (.init : State Bool) loggedBesideWaiter,
    ∃ s₁ ∈ step .sample s₀ (.client true, .flush),
    ∃ s ∈ exec (step .sample) s₁ (List.replicate 13 (.client true, .go false)),
      s.pc (.client true) = .out ∧
      ∃ written : List Entry, s.file = text .sample written ∧ saying 1 ∈ written := by
  have hends : ∃ s₀ ∈ exec (step .sample) (.init : State Bool) loggedBesideWaiter,
      ∃ s₁ ∈ step .sample s₀ (.client true, .flush),
      ∃ s ∈ exec (step .sample) s₁ (List.replicate 13 (.client true, .go false)),
        s.pc (.client true) = .out ∧
        Meets (step .sample) (Calm true) s₁ (List.replicate 13 (.client true, .go false)) ∧
        unevicted s.queue [(saying 1, some 0)] = [saying 1] := by decide +kernel
  have hdiary : ∃ d ∈ exec (Diary.step .sample) (.init : Diary Bool) loggedBesideWaiter,
      d.returned = [(saying 1, some 0)] := by decide +kernel
  obtain ⟨s₀, hbefore, s₁, hbegin, s, hduring, hend, hcalm, hkept⟩ := hends
  obtain ⟨d, hd, hreturned⟩ := hdiary
  obtain ⟨d', hd', -, -, written, hfile, hle⟩ :=
    flush_durable (by decide) hbefore (by decide) hbegin hduring hcalm hend
  cases hd.symm.trans hd'
  rw [hreturned, hkept] at hle
  exact ⟨s₀, hbefore, s₁, hbegin, s, hduring, hend, written, hfile,
    Multiset.mem_coe.mp (Multiset.mem_of_le hle (by simp))⟩

/-- **An entry that `flush` misses.** The writer has popped it and not yet put it into the buffer:
the `flush` finds the queue and the buffer empty and returns, and the file is empty. -/
theorem flush_misses_popped_entry :
    ∃ d ∈ exec (Diary.step .sample) (.init : Diary Bool)
        (loggedBesideWaiter ++ List.replicate 8 (.writer, .go false)),
      d.returned = [(saying 1, some 0)] ∧
      ∃ s₁ ∈ step .sample d.state (.client true, .flush),
      ∃ s ∈ exec (step .sample) s₁ (List.replicate 5 (.client true, .go false)),
        s.pc (.client true) = .out ∧ evicted s.queue (some 0) = false ∧ s.file = [] := by
  decide +kernel

-- An entry behind one that is claimed and not yet published is missed, too.
example :
    ∃ d ∈ exec (Diary.step .sample) (.init : Diary Bool)
        ((.client false, .log (saying 1)) :: List.replicate 4 (.client false, .go false) ++
          (.client true, .log (saying 2)) :: List.replicate 8 (.client true, .go false)),
      d.returned = [(saying 2, some 1)] ∧
      ∃ s₁ ∈ step .sample d.state (.client true, .flush),
      ∃ s ∈ exec (step .sample) s₁ (List.replicate 5 (.client true, .go false)),
        s.pc (.client true) = .out ∧ evicted s.queue (some 1) = false ∧ s.file = [] := by
  decide +kernel

end Muses.Logger
