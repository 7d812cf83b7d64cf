import Muses.Net.World

/-!
# `Task` and `IoAwaiter` — coroutine frames and their handles

The model of `muses/task.hpp`: frames that live at addresses, the promise's `continuation_`, and the
poller's `userdata`, which is the address of the frame to resume. Addresses are reused once a frame
has been destroyed. An operation that would be undefined in C++ — resuming a frame that runs, has
finished or is gone, destroying one that runs — is `none` here.

A client coroutine and the helpers it awaits form a `Chain` of frames. The lemmas say that the
operations of `task.hpp` treat it as a call stack.
-/

namespace Muses.Coro

open Muses.Core Function List

abbrev Handle := Nat

inductive Status where
  /-- at its initial suspension -/
  | created
  | running
  /-- in `co_await` of the task with this frame -/
  | awaiting (callee : Handle)
  /-- in `co_await` of an `IoAwaiter` -/
  | io (fd : Fd)
  /-- at its final suspension -/
  | done
  deriving DecidableEq, Repr

/-- `resume` is called on a coroutine that has not started, or that waits for a descriptor. -/
def Status.resumable : Status → Bool
  | .created => true
  | .io _ => true
  | _ => false

structure Frame where
  status : Status := .created
  continuation : Option Handle := none
  deriving DecidableEq, Repr

/-- The frames of coroutines by address, as the compiler and `task.hpp` keep them. -/
structure Machine where
  frames : Handle → Option Frame
  /-- the coroutine that runs -/
  current : Option Handle
  /-- the poller's `userdata`, for descriptors that wait for a coroutine -/
  userdata : Fd → Option Handle
  /-- history: the number of frames created so far -/
  created : Nat

namespace Machine

def init : Machine where
  frames := fun _ => none
  current := none
  userdata := fun _ => none
  created := 0

def set (m : Machine) (h : Handle) (f : Frame) : Machine :=
  { m with frames := update m.frames h (some f) }

def free (m : Machine) (h : Handle) : Machine :=
  { m with frames := update m.frames h none }

/-- A coroutine function is called, and its frame is allocated at `h`. -/
def create (m : Machine) (h : Handle) : Option Machine :=
  if m.frames h = none then some { m.set h {} with created := m.created + 1 } else none

def resume (m : Machine) (h : Handle) : Option Machine :=
  match m.frames h with
  | some f =>
      if m.current = none ∧ f.status.resumable = true then
        some { m.set h { f with status := .running } with current := some h }
      else none
  | none => none

def awaitTask (m : Machine) (callee : Handle) : Option Machine :=
  match m.current with
  | some caller =>
      match m.frames caller, m.frames callee with
      | some f, some g =>
          if g.status = .created then
            some { (m.set caller { f with status := .awaiting callee }).set callee
              { status := .running, continuation := some caller } with current := some callee }
          else none
      | _, _ => none
  | none => none

def awaitIo (m : Machine) (fd : Fd) (added : Bool) : Option Machine :=
  match m.current with
  | some h =>
      (m.frames h).map fun f =>
        { m.set h { f with status := .io fd } with
          current := none
          userdata := if added then update m.userdata fd (some h) else m.userdata }
  | none => none

def finalSuspend (m : Machine) : Option Machine :=
  match m.current with
  | some h =>
      match m.frames h with
      | some f =>
          match f.continuation with
          | none => some { m.set h { f with status := .done } with current := none }
          | some c =>
              match m.frames c with
              | some g =>
                  if g.status = .awaiting h then
                    some { (m.set h { f with status := .done }).set c
                      { g with status := .running } with current := some c }
                  else none
              | none => none
      | none => none
  | none => none

def destroy : Nat → Machine → Handle → Option Machine
  | 0, _, _ => none
  | n + 1, m, h =>
      match m.frames h with
      | some f =>
          match f.status with
          | .running => none
          | .awaiting callee => (destroy n m callee).map fun m => m.free h
          | _ => some (m.free h)
      | none => none

def dropTask (m : Machine) (h : Handle) : Option Machine := m.destroy m.created h

def isDone (m : Machine) (h : Handle) : Bool :=
  match m.frames h with
  | some f => f.status = .done
  | none => false

def call (m : Machine) (h : Handle) : Option Machine := (m.create h).bind fun m => m.awaitTask h

def ret (m : Machine) : Option Machine :=
  match m.current with
  | some h => m.finalSuspend.bind fun m => m.dropTask h
  | none => none

def del (m : Machine) (fd : Fd) : Machine :=
  { m with userdata := update m.userdata fd none }

def erase (m : Machine) (hs : List Handle) : Machine :=
  { m with frames := fun h => if h ∈ hs then none else m.frames h }

/-- Only finitely many addresses are in use. -/
def Bounded (m : Machine) : Prop := ∃ n, ∀ h, n ≤ h → m.frames h = none

end Machine

inductive Op where
  | call
  | ret
  | awaitIo (fd : Fd) (added : Bool)
  | finish
  deriving DecidableEq, Repr

def Op.step (alloc : Machine → Handle) (m : Machine) : Op → Option Machine
  | .call => m.call (alloc m)
  | .ret => m.ret
  | .awaitIo fd added => m.awaitIo fd added
  | .finish => m.finalSuspend

/-- The allocator returns free addresses. -/
def Allocates (alloc : Machine → Handle) : Prop :=
  ∀ m : Machine, (∃ h, m.frames h = none) → m.frames (alloc m) = none

/-! ## Chains -/

/-- The frames at `hs` await each other, innermost first; the outermost continues with `k`. -/
def Chain (m : Machine) (k : Option Handle) : Status → List Handle → Prop
  | _, [] => True
  | st, h :: hs => m.frames h = some ⟨st, hs.head?.or k⟩ ∧ Chain m k (.awaiting h) hs

section

variable {m m' : Machine} {k : Option Handle} {st : Status} {h r : Handle} {hs : List Handle}

theorem Chain.congr (hchain : Chain m k st hs) (hsame : ∀ h ∈ hs, m'.frames h = m.frames h) :
    Chain m' k st hs := by
  induction hs generalizing st with
  | nil => trivial
  | cons h hs ih =>
    refine ⟨(hsame h mem_cons_self).trans hchain.1, ih hchain.2 fun j hj => ?_⟩
    exact hsame j (mem_cons_of_mem h hj)

theorem Chain.taken (hchain : Chain m k st hs) (hmem : h ∈ hs) : m.frames h ≠ none := by
  induction hs generalizing st with
  | nil => cases hmem
  | cons j hs ih =>
    rcases mem_cons.mp hmem with rfl | hmem
    · rw [hchain.1]
      nofun
    · exact ih hchain.2 hmem

theorem chain_concat : Chain m k st (hs ++ [r]) ↔
    Chain m (some r) st hs ∧ m.frames r = some ⟨(hs.getLast?.map .awaiting).getD st, k⟩ := by
  induction hs generalizing st with
  | nil => simp [Chain]
  | cons h hs ih =>
    have hhead : (hs ++ [r]).head?.or k = hs.head?.or (some r) := by cases hs <;> rfl
    have hlast : ((h :: hs).getLast?.map Status.awaiting).getD st =
        (hs.getLast?.map .awaiting).getD (.awaiting h) := by
      rw [getLast?_cons]
      cases hs.getLast? <;> rfl
    simp only [cons_append, Chain, ih, hhead, hlast, and_assoc]

/-- **The destructor of a `Task`** destroys the chain that hangs on it. -/
theorem destroy_chain {n : Nat} (hchain : Chain m k st (hs ++ [r])) (hnodup : (hs ++ [r]).Nodup)
    (hst : st ≠ .running ∧ ∀ c, st ≠ .awaiting c) (hfuel : (hs ++ [r]).length ≤ n) :
    m.destroy n r = some (m.erase (hs ++ [r])) := by
  induction hs using List.reverseRecOn generalizing r k n with
  | nil =>
    obtain ⟨n, rfl⟩ : ∃ n', n = n' + 1 := ⟨n - 1, by simp at hfuel; omega⟩
    have hr : m.frames r = some ⟨st, k⟩ := hchain.1
    have hfree : m.free r = m.erase ([] ++ [r]) := by
      simp only [Machine.free, Machine.erase, nil_append, mem_singleton]
      congr 1
      funext j
      rw [update_apply]
    rw [← hfree]
    simp only [Machine.destroy, hr]
    split
    · exact absurd rfl hst.1
    · exact absurd rfl (hst.2 _)
    · rfl
  | append_singleton hs c ih =>
    obtain ⟨n, rfl⟩ : ∃ n', n = n' + 1 := ⟨n - 1, by simp at hfuel; omega⟩
    obtain ⟨hinner, hr⟩ := chain_concat.mp hchain
    simp only [getLast?_concat, Option.map_some, Option.getD_some] at hr
    have hlen : (hs ++ [c]).length ≤ n := by
      simp only [length_append, length_singleton] at hfuel ⊢
      omega
    simp only [Machine.destroy, hr, ih hinner (nodup_append.mp hnodup).1 hlen,
      Option.map_some, Machine.free, Machine.erase]
    congr 2
    funext j
    by_cases hj : j = r <;> simp [hj]

/-- The chain ends in `r`, and none of its frames is running. -/
structure Rests (m : Machine) (r : Handle) (hs : List Handle) : Prop where
  chain : ∃ st, Chain m none st hs ∧ st ≠ .running ∧ ∀ c, st ≠ .awaiting c
  root : hs.getLast? = some r
  nodup : hs.Nodup
  depth : hs.length ≤ m.created

theorem Rests.dropTask (hm : Rests m r hs) : m.dropTask r = some (m.erase hs) := by
  obtain ⟨st, hchain, hst⟩ := hm.chain
  obtain ⟨xs, rfl⟩ := getLast?_eq_some_iff.mp hm.root
  exact destroy_chain hchain hm.nodup hst hm.depth

theorem Rests.erase {hs' : List Handle} (hm : Rests m r hs) (hdisj : ∀ h ∈ hs, h ∉ hs') :
    Rests (m.erase hs') r hs where
  chain := by
    obtain ⟨st, hchain, hst⟩ := hm.chain
    exact ⟨st, hchain.congr fun h hh => if_neg (hdisj h hh), hst⟩
  root := hm.root
  nodup := hm.nodup
  depth := hm.depth

theorem dropTasks_erase {ι : Type*} {root : ι → Handle} {stack : ι → List Handle} {ids : List ι}
    (hnodup : ids.Nodup) (hrests : ∀ i ∈ ids, Rests m (root i) (stack i))
    (hdisj : ∀ i ∈ ids, ∀ j ∈ ids, i ≠ j → ∀ h ∈ stack i, h ∉ stack j) :
    ids.foldlM (fun m i => m.dropTask (root i)) m = some (m.erase (ids.flatMap stack)) := by
  induction ids generalizing m with
  | nil => simp [Machine.erase]
  | cons i ids ih =>
    obtain ⟨hi, hnodup⟩ := nodup_cons.mp hnodup
    have hdrop := (hrests i mem_cons_self).dropTask
    have hrest := ih (m := m.erase (stack i)) hnodup (fun j hj => ?_) fun j hj l hl =>
      hdisj j (mem_cons_of_mem i hj) l (mem_cons_of_mem i hl)
    · rw [foldlM_cons, hdrop]
      refine hrest.trans ?_
      simp only [Machine.erase, flatMap_cons, mem_append]
      congr 2
      funext h
      by_cases hh : h ∈ stack i <;> simp [hh]
    · have hij : j ≠ i := fun heq => hi (heq ▸ hj)
      exact (hrests j (mem_cons_of_mem i hj)).erase
        (hdisj j (mem_cons_of_mem i hj) i mem_cons_self hij)

/-! ## The running chain as a stack -/

/-- The chain with the running frame first. -/
structure Stack (m : Machine) (hs : List Handle) : Prop where
  chain : Chain m none .running hs
  current : m.current = hs.head?
  ne : hs ≠ []
  nodup : hs.Nodup
  depth : hs.length ≤ m.created

/-- From `m` to `m'` the chain `hs` has become `hs'`: only its frames have changed and addresses
that were free, what was taken for it and is not in it any more is free again, and its outermost
frame is still the same. -/
structure Shift (m : Machine) (hs : List Handle) (m' : Machine) (hs' : List Handle) : Prop where
  kept : ∀ j, j ∉ hs → m.frames j ≠ none → m'.frames j = m.frames j
  gone : ∀ j, j ∉ hs' → j ∈ hs ∨ m.frames j = none → m'.frames j = none
  own : ∀ j ∈ hs', j ∈ hs ∨ m.frames j = none
  root : hs'.getLast? = hs.getLast?
  created : m.created ≤ m'.created
  bounded : m.Bounded → m'.Bounded

variable {x : Handle} {fd : Fd}

theorem Machine.Bounded.update {f : Option Frame} (hm : m.Bounded)
    (hframes : m'.frames = update m.frames x f) : m'.Bounded := by
  obtain ⟨n, hn⟩ := hm
  refine ⟨max n (x + 1), fun h hh => ?_⟩
  have hx : h ≠ x := Nat.ne_of_gt ((le_max_right n (x + 1)).trans hh)
  rw [hframes, update_of_ne hx]
  exact hn h ((le_max_left n (x + 1)).trans hh)

theorem Shift.refl (m : Machine) (hs : List Handle) : Shift m hs m hs :=
  ⟨fun _ _ _ => rfl, fun _ hj hor => hor.resolve_left hj, fun _ hj => .inl hj, rfl, le_refl _,
    fun h => h⟩

theorem Shift.trans {m₁ : Machine} {hs₁ hs' : List Handle} (hm : Shift m hs m₁ hs₁)
    (hm₁ : Shift m₁ hs₁ m' hs') : Shift m hs m' hs' where
  kept j hj htaken := by
    have hsame := hm.kept j hj htaken
    have hj₁ : j ∉ hs₁ := fun hmem => (hm.own j hmem).elim hj htaken
    rw [hm₁.kept j hj₁ (by rwa [hsame]), hsame]
  gone j hj hor := by
    by_cases hj₁ : j ∈ hs₁
    · exact hm₁.gone j hj (.inl hj₁)
    · exact hm₁.gone j hj (.inr (hm.gone j hj₁ hor))
  own j hj := by
    rcases hm₁.own j hj with hj₁ | hfree
    · exact hm.own j hj₁
    · by_contra hnot
      obtain ⟨hout, htaken⟩ := not_or.mp hnot
      exact htaken ((hm.kept j hout htaken).symm.trans hfree)
  root := hm₁.root.trans hm.root
  created := hm.created.trans hm₁.created
  bounded hb := hm₁.bounded (hm.bounded hb)

theorem shift_set {f : Frame} (hmem : h ∈ hs)
    (hframes : m'.frames = update m.frames h (some f))
    (hcreated : m'.created = m.created) : Shift m hs m' hs where
  kept j hj _ := by
    have hne : j ≠ h := fun heq => hj (heq ▸ hmem)
    rw [hframes, update_of_ne hne]
  gone j hj hor := by
    have hne : j ≠ h := fun heq => hj (heq ▸ hmem)
    rw [hframes, update_of_ne hne, hor.resolve_left hj]
  own _ hj := .inl hj
  root := rfl
  created := hcreated.symm.le
  bounded hb := hb.update hframes

/-- **Outside the chain that a coroutine has grown**, nothing has changed. -/
theorem Shift.outside {hs' : List Handle} {j : Handle} (hm : Shift m [h] m' hs') (hj : j ∉ hs') :
    m'.frames j = m.frames j := by
  have hmem : h ∈ hs' := mem_of_getLast? hm.root
  by_cases hfree : m.frames j = none
  · rw [hm.gone j hj (.inr hfree), hfree]
  · have hne : j ≠ h := fun heq => hj (heq ▸ hmem)
    exact hm.kept j (by simpa using hne) hfree

theorem Stack.call (hm : Stack m hs) (hx : m.frames x = none) :
    ∃ m', m.call x = some m' ∧ Stack m' (x :: hs) ∧ Shift m hs m' (x :: hs) ∧
      m'.userdata = m.userdata := by
  obtain ⟨h, hs, rfl⟩ := exists_cons_of_ne_nil hm.ne
  obtain ⟨hh, hrest⟩ := hm.chain
  have hcurrent : m.current = some h := hm.current
  have hxs {j : Handle} (hj : j ∈ h :: hs) : j ≠ x := by
    rintro rfl
    exact hm.chain.taken hj hx
  have hhs {j : Handle} (hj : j ∈ hs) : j ≠ h := by
    rintro rfl
    exact (nodup_cons.mp hm.nodup).1 hj
  have hxh : h ≠ x := hxs mem_cons_self
  refine ⟨{ ((m.set x {}).set h ⟨.awaiting x, hs.head?.or none⟩).set x ⟨.running, some h⟩ with
      current := some x
      created := m.created + 1 }, ?_,
    { chain := ⟨update_self .., ?_, ?_⟩
      current := rfl
      ne := nofun
      nodup := nodup_cons.mpr ⟨fun hmem => hxs hmem rfl, hm.nodup⟩
      depth := Nat.succ_le_succ hm.depth },
    { kept := fun j hj htaken => ?_
      gone := fun j hj hor => ?_
      own := fun j hj => ?_
      root := getLast?_cons_cons ..
      created := Nat.le_succ _
      bounded := fun hb => ?_ }, rfl⟩
  · simp [Machine.call, Machine.create, Machine.awaitTask, Machine.set, hx, hcurrent, hxh, hh]
  · simp [Machine.set, hxh]
  · refine hrest.congr fun j hj => ?_
    simp [Machine.set, hxs (mem_cons_of_mem h hj), hhs hj]
  · have hjx : j ≠ x := by
      rintro rfl
      exact htaken hx
    have hjh : j ≠ h := fun heq => hj (heq ▸ mem_cons_self)
    simp [Machine.set, hjx, hjh]
  · obtain ⟨hjx, hj⟩ := not_or.mp (mt mem_cons.mpr hj)
    have hjh : j ≠ h := fun heq => hj (heq ▸ mem_cons_self)
    simp [Machine.set, hjx, hjh, hor.resolve_left hj]
  · rcases mem_cons.mp hj with rfl | hj
    · exact .inr hx
    · exact .inl hj
  · have hb₁ : (m.set x {}).Bounded := hb.update rfl
    have hb₂ : ((m.set x {}).set h ⟨.awaiting x, hs.head?.or none⟩).Bounded := hb₁.update rfl
    exact hb₂.update rfl

/-- **A task that ends** goes back to the coroutine that awaits it, and its frame is destroyed
(`Shift.gone`). -/
theorem Stack.ret (hm : Stack m (h :: hs)) (hne : hs ≠ []) :
    ∃ m', m.ret = some m' ∧ Stack m' hs ∧ Shift m (h :: hs) m' hs ∧ m'.userdata = m.userdata := by
  obtain ⟨c, hs, rfl⟩ := exists_cons_of_ne_nil hne
  obtain ⟨hh, hc, hrest⟩ := hm.chain
  have hcurrent : m.current = some h := hm.current
  obtain ⟨hmem, hnodup⟩ := nodup_cons.mp hm.nodup
  have hhc : h ≠ c := fun heq => hmem (heq ▸ mem_cons_self)
  have hout {j : Handle} (hj : j ∈ hs) : j ≠ h ∧ j ≠ c := by
    refine ⟨fun heq => hmem (heq ▸ mem_cons_of_mem c hj), fun heq => ?_⟩
    exact (nodup_cons.mp hnodup).1 (heq ▸ hj)
  have hdepth := hm.depth
  obtain ⟨n, hn⟩ : ∃ n, m.created = n + 1 := ⟨m.created - 1, by simp at hdepth; omega⟩
  refine ⟨{ ((m.set h ⟨.done, some c⟩).set c ⟨.running, hs.head?.or none⟩).free h with
      current := some c }, ?_,
    { chain := ⟨?_, ?_⟩
      current := rfl
      ne := nofun
      nodup := hnodup
      depth := (Nat.le_succ _).trans hm.depth },
    { kept := fun j hj _ => ?_
      gone := fun j hj hor => ?_
      own := fun j hj => .inl (mem_cons_of_mem h hj)
      root := (getLast?_cons_cons ..).symm
      created := le_refl _
      bounded := fun hb => ?_ }, rfl⟩
  · simp [Machine.ret, Machine.finalSuspend, Machine.dropTask, Machine.destroy, Machine.set,
      Machine.free, hcurrent, hh, hc, hn, hhc]
  · simp [Machine.set, Machine.free, hhc.symm]
  · refine hrest.congr fun j hj => ?_
    simp [Machine.set, Machine.free, (hout hj).1, (hout hj).2]
  · have hjh : j ≠ h := fun heq => hj (heq ▸ mem_cons_self)
    have hjc : j ≠ c := fun heq => hj (heq ▸ mem_cons_of_mem h mem_cons_self)
    simp [Machine.set, Machine.free, hjh, hjc]
  · by_cases hjh : j = h
    · simp [Machine.free, hjh]
    · have hjc : j ≠ c := fun heq => hj (heq ▸ mem_cons_self)
      have hfree : m.frames j = none := hor.resolve_left (by simpa [hjh] using hj)
      simp [Machine.set, Machine.free, hjh, hjc, hfree]
  · have hb₁ : (m.set h ⟨.done, some c⟩).Bounded := hb.update rfl
    have hb₂ : ((m.set h ⟨.done, some c⟩).set c ⟨.running, hs.head?.or none⟩).Bounded :=
      hb₁.update rfl
    exact hb₂.update rfl

/-- The number of frames above the outermost one after these operations, from `d` of them; `none`
if the outermost coroutine would end or suspend on the way. -/
def Op.climb : Nat → List Op → Option Nat
  | d, [] => some d
  | d, .call :: ops => climb (d + 1) ops
  | d + 1, .ret :: ops => climb d ops
  | _, _ => none

theorem Stack.climb {alloc : Machine → Handle} (halloc : Allocates alloc) {ops : List Op}
    {d d' : Nat} (hm : Stack m hs) (hb : m.Bounded) (hlen : hs.length = d + 1)
    (hclimb : Op.climb d ops = some d') :
    ∃ m' hs', exec (Op.step alloc) m ops = some m' ∧ Stack m' hs' ∧ hs'.length = d' + 1 ∧
      Shift m hs m' hs' ∧ m'.userdata = m.userdata := by
  induction ops generalizing m hs d with
  | nil =>
    cases hclimb
    exact ⟨m, hs, rfl, hm, hlen, .refl m hs, rfl⟩
  | cons op ops ih =>
    -- one operation, then the rest from the stack that it leaves
    have hrest {m₁ : Machine} {hs₁ : List Handle} {d₁ : Nat} (hop : op.step alloc m = some m₁)
        (hm₁ : Stack m₁ hs₁) (hshift : Shift m hs m₁ hs₁) (hdata : m₁.userdata = m.userdata)
        (hlen₁ : hs₁.length = d₁ + 1) (hclimb : Op.climb d₁ ops = some d') :
        ∃ m' hs', exec (Op.step alloc) m (op :: ops) = some m' ∧ Stack m' hs' ∧
          hs'.length = d' + 1 ∧ Shift m hs m' hs' ∧ m'.userdata = m.userdata := by
      obtain ⟨m', hs', hrun, hm', hlen', hshift', hdata'⟩ :=
        ih hm₁ (hshift.bounded hb) hlen₁ hclimb
      exact ⟨m', hs', by rw [exec_cons_of_step ops hop, hrun], hm', hlen', hshift.trans hshift',
        hdata'.trans hdata⟩
    cases op with
    | call =>
      obtain ⟨n, hn⟩ := hb
      obtain ⟨m₁, hcall, hm₁, hshift, hdata⟩ := hm.call (halloc m ⟨n, hn n (le_refl n)⟩)
      exact hrest hcall hm₁ hshift hdata (by simp [hlen]) hclimb
    | ret =>
      cases d with
      | zero => cases hclimb
      | succ d =>
        obtain ⟨h, hs, rfl⟩ := exists_cons_of_ne_nil hm.ne
        have hlen₁ : hs.length = d + 1 := by simpa using hlen
        obtain ⟨m₁, hret, hm₁, hshift, hdata⟩ :=
          hm.ret (ne_nil_of_length_eq_add_one hlen₁)
        exact hrest hret hm₁ hshift hdata hlen₁ hclimb
    | awaitIo | finish => cases d <;> cases hclimb

/-! ## Suspension and resumption -/

theorem Chain.setHead {st' : Status} (hchain : Chain m k st (h :: hs)) (hnodup : (h :: hs).Nodup)
    (hframes : m'.frames = update m.frames h (some ⟨st', hs.head?.or k⟩)) :
    Chain m' k st' (h :: hs) := by
  refine ⟨by rw [hframes, update_self], hchain.2.congr fun j hj => ?_⟩
  have hne : j ≠ h := fun heq => (nodup_cons.mp hnodup).1 (heq ▸ hj)
  rw [hframes, update_of_ne hne]

theorem Stack.awaitIo (hm : Stack m hs) (fd : Fd) (added : Bool) :
    ∃ m', m.awaitIo fd added = some m' ∧ Chain m' none (.io fd) hs ∧ m'.current = none ∧
      Shift m hs m' hs ∧
      m'.userdata = if added then update m.userdata fd hs.head? else m.userdata := by
  obtain ⟨h, hs, rfl⟩ := exists_cons_of_ne_nil hm.ne
  have hh := hm.chain.1
  have hcurrent : m.current = some h := hm.current
  refine ⟨{ m.set h ⟨.io fd, hs.head?.or none⟩ with
      current := none
      userdata := if added then update m.userdata fd (some h) else m.userdata }, ?_,
    hm.chain.setHead hm.nodup rfl, rfl, shift_set mem_cons_self rfl rfl, rfl⟩
  simp [Machine.awaitIo, hcurrent, hh]

theorem Stack.finish (hm : Stack m [h]) :
    ∃ m', m.finalSuspend = some m' ∧ Chain m' none .done [h] ∧ m'.current = none ∧
      Shift m [h] m' [h] ∧ m'.userdata = m.userdata := by
  have hh := hm.chain.1
  have hcurrent : m.current = some h := hm.current
  refine ⟨{ m.set h ⟨.done, none⟩ with current := none }, ?_, hm.chain.setHead hm.nodup rfl, rfl,
    shift_set mem_cons_self rfl rfl, rfl⟩
  simp [Machine.finalSuspend, hcurrent, hh]

theorem Chain.resume (hchain : Chain m none (.io fd) (h :: hs)) (hnodup : (h :: hs).Nodup)
    (hdepth : (h :: hs).length ≤ m.created) (hidle : m.current = none) :
    ∃ m', m.resume h = some m' ∧ Stack m' (h :: hs) ∧ Shift m (h :: hs) m' (h :: hs) ∧
      m'.userdata = m.userdata := by
  have hh := hchain.1
  refine ⟨{ m.set h ⟨.running, hs.head?.or none⟩ with current := some h }, ?_,
    ⟨hchain.setHead hnodup rfl, rfl, nofun, hnodup, hdepth⟩,
    shift_set mem_cons_self rfl rfl, rfl⟩
  simp [Machine.resume, hidle, hh, Status.resumable]

theorem start_stack (hx : m.frames x = none) (hidle : m.current = none) :
    ∃ m', ((m.create x).bind fun m => m.resume x) = some m' ∧ Stack m' [x] ∧
      (∀ j, m.frames j ≠ none → m'.frames j = m.frames j) ∧ (m.Bounded → m'.Bounded) ∧
      m.created ≤ m'.created ∧ m'.userdata = m.userdata := by
  refine ⟨{ (m.set x {}).set x ⟨.running, none⟩ with
      current := some x
      created := m.created + 1 }, ?_,
    ⟨⟨update_self .., trivial⟩, rfl, nofun, nodup_singleton x,
      Nat.succ_le_succ (Nat.zero_le _)⟩, fun j hj => ?_, fun hb => ?_, Nat.le_succ _, rfl⟩
  · simp [Machine.create, Machine.resume, Machine.set, hx, hidle, Status.resumable]
  · have hjx : j ≠ x := by
      rintro rfl
      exact hj hx
    simp [Machine.set, hjx]
  · have hb₁ : (m.set x {}).Bounded := hb.update rfl
    exact hb₁.update rfl

/-! ## Await chains -/

/-- `h` awaits `c`. -/
def Machine.Awaits (m : Machine) (h c : Handle) : Prop :=
  ∃ k, m.frames h = some ⟨.awaiting c, k⟩

def Machine.InChain (m : Machine) (root h : Handle) : Prop :=
  Relation.ReflTransGen m.Awaits root h

/-- `h` waits for the descriptor. -/
def Machine.SuspendedAt (m : Machine) (h : Handle) (fd : Fd) : Prop :=
  ∃ k, m.frames h = some ⟨.io fd, k⟩

theorem Machine.SuspendedAt.inj {fd' : Fd} (hm : m.SuspendedAt h fd) (hm' : m.SuspendedAt h fd') :
    fd = fd' := by
  obtain ⟨k, hk⟩ := hm
  obtain ⟨k', hk'⟩ := hm'
  rw [hk, Option.some.injEq, Frame.mk.injEq, Status.io.injEq] at hk'
  exact hk'.1

theorem Chain.inChain (hchain : Chain m k st (h :: hs)) (hr : (h :: hs).getLast? = some r) :
    m.InChain r h := by
  induction hs generalizing h st with
  | nil =>
    obtain rfl : h = r := by simpa using hr
    exact .refl
  | cons c hs ih =>
    rw [getLast?_cons_cons] at hr
    exact (ih hchain.2 hr).tail ⟨_, hchain.2.1⟩

theorem Chain.awaits_mem {c : Handle} (hchain : Chain m k st hs) (hst : ∀ c, st ≠ .awaiting c)
    (hmem : h ∈ hs) (haw : m.Awaits h c) : c ∈ hs := by
  -- the frame below `c` in the list is the one that awaits it, so `c` precedes `h`
  have hinner {c₀ : Handle} {hs : List Handle} (hchain : Chain m k (.awaiting c₀) hs)
      (hmem : h ∈ hs) : c = c₀ ∨ c ∈ hs := by
    induction hs generalizing c₀ with
    | nil => cases hmem
    | cons j hs ih =>
      obtain ⟨k', hk'⟩ := haw
      rcases mem_cons.mp hmem with rfl | hmem
      · rw [hchain.1, Option.some.injEq, Frame.mk.injEq, Status.awaiting.injEq] at hk'
        exact .inl hk'.1.symm
      · rcases ih hchain.2 hmem with rfl | hc
        · exact .inr mem_cons_self
        · exact .inr (mem_cons_of_mem j hc)
  cases hs with
  | nil => cases hmem
  | cons j hs =>
    obtain ⟨k', hk'⟩ := haw
    rcases mem_cons.mp hmem with rfl | hmem
    · rw [hchain.1, Option.some.injEq, Frame.mk.injEq] at hk'
      exact absurd hk'.1 (hst c)
    · rcases hinner hchain.2 hmem with rfl | hc
      · exact mem_cons_self
      · exact mem_cons_of_mem j hc

theorem Chain.eq_of_suspendedAt {j : Handle} (hchain : Chain m k st (h :: hs))
    (hmem : j ∈ h :: hs) (hj : m.SuspendedAt j fd) : j = h := by
  obtain ⟨k', hk'⟩ := hj
  have hinner {c₀ : Handle} {hs : List Handle} (hchain : Chain m k (.awaiting c₀) hs) : j ∉ hs := by
    induction hs generalizing c₀ with
    | nil => exact not_mem_nil
    | cons i hs ih =>
      rintro (_ | ⟨_, hmem⟩)
      · rw [hchain.1] at hk'
        cases hk'
      · exact ih hchain.2 hmem
  rcases mem_cons.mp hmem with rfl | hmem
  · rfl
  · exact absurd hmem (hinner hchain.2)

theorem Chain.mem_of_inChain {j : Handle} (hchain : Chain m k st hs) (hst : ∀ c, st ≠ .awaiting c)
    (hr : hs.getLast? = some r) (hin : m.InChain r j) : j ∈ hs := by
  induction hin with
  | refl => exact mem_of_getLast? hr
  | tail _ haw ih => exact hchain.awaits_mem hst ih haw

end

end Muses.Coro
