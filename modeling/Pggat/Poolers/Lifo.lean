import Pggat.Spool.Pooler
import Pggat.Util.Ring

/-! The `lifo` pooler with its ring of waiting channels, which are used again and again.
An operation that would block under the mutex, or panic, is `none`. -/
namespace Pggat.Poolers
open Spool

/-- The `lifo` pooler; channels are numbered as they are made, and `pool` is the list of those to use again. -/
structure Pooler where
  pool : List Nat := []
  servers : List Uuid := []
  queue : List Uuid := []
  waiters : Util.Ring Nat := {}
  closed : Bool := false
  chans : Nat → Ready := fun _ => {}
  made : Nat := 0

/-- `slices.RemoveIndex`: the items behind move up, the item goes to the end and is cut off. -/
def removeIndex {α : Type} (slice : List α) (idx : Nat) : List α :=
  match slice[idx]? with
  | some item => (slice.take idx ++ slice.drop (idx + 1) ++ [item]).take (slice.length - 1)
  | none => slice

/-- `slices.Remove` -/
def remove {α : Type} [DecidableEq α] (slice : List α) (item : α) : List α :=
  match slice.idxOf? item with
  | some i => removeIndex slice i
  | none => slice

theorem remove_eq_erase {α : Type} [DecidableEq α] (slice : List α) (item : α) :
    remove slice item = slice.erase item := by
  rw [remove,List.erase_eq_eraseIdx]
  cases found : slice.idxOf? item with
  | none => rfl
  | some i =>
    obtain ⟨hi,-⟩ := List.idxOf?_eq_some_iff.mp found
    have length : (slice.take i ++ slice.drop (i + 1)).length = slice.length - 1 := by simp; omega
    simp only [removeIndex,List.getElem?_eq_getElem hi,List.eraseIdx_eq_take_drop_succ,← length,List.take_left']

namespace Pooler
variable (T : Pooler)

/-- `c <- server` -/
def send (c : Nat) (server : Uuid) : Option Pooler :=
  if (T.chans c).closed || (T.chans c).buffered.isSome then none
  else some { T with chans := Function.update T.chans c { buffered := some server } }

/-- `v, ok = <-c`; without a value if the channel is closed. -/
def receive (c : Nat) : Option (Option Uuid × Pooler) :=
  match (T.chans c).buffered with
  | some server =>
    some (some server,{ T with chans := Function.update T.chans c { T.chans c with buffered := none } })
  | none => if (T.chans c).closed then some (none,T) else none

/-- `T.pool.Get()`, or a new channel. -/
def get : Nat × Pooler :=
  match T.pool.getLast? with
  | some c => (c,{ T with pool := T.pool.dropLast })
  | none => (T.made,{ T with chans := Function.update T.chans T.made {}, made := T.made + 1 })

/-- `T.pool.Put(c)` -/
def put (c : Nat) : Pooler := { T with pool := T.pool ++ [c] }

def release (server : Uuid) : Option Pooler :=
  if server ∉ T.servers then some T else
  T.waiters.popFront.bind fun (front,waiters) =>
    match front with
    | some c => send { T with waiters := waiters } c server
    | none => some { T with waiters := waiters, queue := T.queue ++ [server] }

def addServer (server : Uuid) : Option Pooler :=
  release { T with servers := server :: T.servers.erase server } server

def deleteServer (server : Uuid) : Pooler :=
  { T with queue := remove T.queue server, servers := T.servers.erase server }

/-- How the first critical section of `Acquire` ends. -/
inductive Acquired where
  | refused
  | server (id : Uuid)
  | wait (c : Nat)
  deriving DecidableEq, Repr

/-- The first critical section of `Acquire`. -/
def acquire : Option (Acquired × Pooler) :=
  if T.closed then some (.refused,T) else
  match T.queue.getLast? with
  | some worker => some (.server worker,{ T with queue := T.queue.dropLast })
  | none =>
    let (ready,T) := T.get
    (T.waiters.pushBack ready).map fun waiters => (.wait ready,{ T with waiters := waiters })

/-- `n` turns of the loop that cuts a channel out of the ring. -/
def cut (c : Nat) : Nat → Bool → Util.Ring Nat → Option (Bool × Util.Ring Nat)
  | 0, found, waiters => some (found,waiters)
  | n + 1, found, waiters =>
    waiters.popFront.bind fun (front,waiters) =>
      let cc := front.getD default
      if c = cc then cut c n true waiters else (waiters.pushBack cc).bind (cut c n found)

/-- The critical section of `Acquire` once its timer has fired. -/
def timeout (c : Nat) : Option (Option Uuid × Pooler) :=
  (cut c T.waiters.length false T.waiters).bind fun (found,waiters) =>
    if found then some (none,put { T with waiters := waiters } c)
    else (receive { T with waiters := waiters } c).map fun (v,T) => (v,if v.isSome then T.put c else T)

/-- The loop of `Close`, for at most so many turns. -/
def closeWaiters : Nat → Pooler → Option Pooler
  | 0, _ => none
  | n + 1, T =>
    T.waiters.popFront.bind fun (front,waiters) =>
      match front with
      | none => some { T with waiters := waiters }
      | some c =>
        if (T.chans c).closed then none
        else closeWaiters n { T with
          waiters := waiters, chans := Function.update T.chans c { T.chans c with closed := true } }

def close : Option Pooler :=
  closeWaiters (T.waiters.length + 1) { T with closed := true, servers := [], queue := [] }

variable {T} {server : Uuid} {c : Nat}

theorem receive_buffered (h : T.chans c = { buffered := some server }) :
    T.receive c = some (some server,{ T with chans := Function.update T.chans c {} }) := by
  simp [receive,h]

theorem receive_closed (h : T.chans c = { closed := true }) : T.receive c = some (none,T) := by
  simp [receive,h]

theorem release_unknown (h : server ∉ T.servers) : T.release server = some T := if_pos h

theorem release_queue (hw : T.waiters.Wf) (h : server ∈ T.servers) (empty : T.waiters.items = []) :
    ∃ w, T.release server = some { T with waiters := w, queue := T.queue ++ [server] } ∧ w.Wf ∧ w.items = [] := by
  obtain ⟨w,hpop,wf,items⟩ := hw.popFront
  exact ⟨w,by simp [release,h,hpop,empty],wf,by simp [items,empty]⟩

theorem release_first {rest : List Nat} (hw : T.waiters.Wf) (h : server ∈ T.servers)
    (first : T.waiters.items = c :: rest) (empty : T.chans c = {}) :
    ∃ w, T.release server = some { T with
        waiters := w, chans := Function.update T.chans c { buffered := some server } } ∧ w.Wf ∧ w.items = rest := by
  obtain ⟨w,hpop,wf,items⟩ := hw.popFront
  exact ⟨w,by simp [release,h,hpop,first,send,empty],wf,by simp [items,first]⟩

theorem get_cases (T : Pooler) :
    (∃ front c, T.pool = front ++ [c] ∧ T.get = (c,{ T with pool := front })) ∨
    T.pool = [] ∧ T.get = (T.made,{ T with chans := Function.update T.chans T.made {}, made := T.made + 1 }) := by
  rcases List.eq_nil_or_concat T.pool with empty | ⟨front,c,hp⟩
  · exact .inr ⟨empty,by simp [get,empty]⟩
  · rw [List.concat_eq_append] at hp
    exact .inl ⟨front,c,hp,by simp [get,hp]⟩

private theorem get_waiters (T : Pooler) : T.get.2.waiters = T.waiters := by
  obtain ⟨_,_,-,e⟩ | ⟨-,e⟩ := T.get_cases <;> rw [e]

theorem acquire_refused (h : T.closed = true) : T.acquire = some (.refused,T) := if_pos h

theorem acquire_server {front : List Uuid} (h : T.closed = false) (hq : T.queue = front ++ [server]) :
    T.acquire = some (.server server,{ T with queue := front }) := by
  simp [acquire,h,hq]

theorem acquire_wait (hw : T.waiters.Wf) (h : T.closed = false) (hq : T.queue = []) :
    ∃ w, T.acquire = some (.wait T.get.1,{ T.get.2 with waiters := w }) ∧ w.Wf ∧
      w.items = T.waiters.items ++ [T.get.1] := by
  obtain ⟨w,hpush,wf,items⟩ := hw.pushBack T.get.1
  exact ⟨w,by simp [acquire,h,hq,get_waiters,hpush],wf,items⟩

variable {waiters : Util.Ring Nat}

/-- After so many turns these channels are at the back, without the one that is cut out. -/
theorem cut_turns (c : Nat) {front : List Nat} (back : List Nat) (found : Bool) (hw : waiters.Wf)
    (items : waiters.items = front ++ back) :
    ∃ w, cut c front.length found waiters = some (found || front.contains c,w) ∧ w.Wf ∧
      w.items = back ++ front.filter (· ≠ c) := by
  induction front generalizing waiters back found with
  | nil => exact ⟨waiters,by simp [cut],hw,by simp [items]⟩
  | cons cc front ih =>
    obtain ⟨w,hpop,wf,rest⟩ := hw.popFront
    rw [items] at hpop rest
    simp only [List.length_cons,cut,hpop,Option.bind_some]
    by_cases hc : c = cc
    · subst hc
      obtain ⟨w',hcut,wf',items'⟩ := ih back true wf rest
      exact ⟨w',by simpa using hcut,wf',by simpa using items'⟩
    · obtain ⟨w',hpush,wf',items'⟩ := wf.pushBack cc
      rw [rest] at items'
      obtain ⟨w'',hcut,wf'',items''⟩ := ih (back ++ [cc]) found wf' (by simpa using items')
      refine ⟨w'',?_,wf'',?_⟩
      · simpa [hc,hpush] using hcut
      · simp [items'',Ne.symm hc]

theorem cut_all (c : Nat) (hw : waiters.Wf) :
    ∃ w, cut c waiters.length false waiters = some (waiters.items.contains c,w) ∧ w.Wf ∧
      w.items = waiters.items.filter (· ≠ c) := by
  have turns := cut_turns c [] false hw (List.append_nil _).symm
  simpa [hw.length_items] using turns

theorem timeout_found (hw : T.waiters.Wf) (hc : c ∈ T.waiters.items) :
    ∃ w, T.timeout c = some (none,put { T with waiters := w } c) ∧ w.Wf ∧
      w.items = T.waiters.items.filter (· ≠ c) := by
  obtain ⟨w,hcut,wf,items⟩ := cut_all c hw
  exact ⟨w,by simp [timeout,hcut,hc],wf,items⟩

theorem timeout_lost (hw : T.waiters.Wf) (hc : c ∉ T.waiters.items) :
    ∃ w, T.timeout c = (receive { T with waiters := w } c).map (fun (v,T) => (v,if v.isSome then T.put c else T)) ∧
      w.Wf ∧ w.items = T.waiters.items := by
  obtain ⟨w,hcut,wf,items⟩ := cut_all c hw
  refine ⟨w,by simp [timeout,hcut,hc],wf,items.trans (List.filter_eq_self.mpr fun a ha => ?_)⟩
  simpa using fun e : a = c => hc (e ▸ ha)

/-- All channels of the ring are closed, if they are open and no two of them the same. -/
theorem closeWaiters_all (n : Nat) (T : Pooler) (hw : T.waiters.Wf) (length : T.waiters.items.length = n)
    (nodup : T.waiters.items.Nodup) (opened : ∀ c ∈ T.waiters.items, (T.chans c).closed = false) :
    ∃ w, closeWaiters (n + 1) T = some { T with
        waiters := w
        chans := fun c => if c ∈ T.waiters.items then { T.chans c with closed := true } else T.chans c } ∧
      w.Wf ∧ w.items = [] := by
  induction n generalizing T with
  | zero =>
    obtain ⟨w,hpop,wf,items⟩ := hw.popFront
    have empty := List.length_eq_zero_iff.mp length
    exact ⟨w,by simp [closeWaiters,hpop,empty],wf,by simp [items,empty]⟩
  | succ n ih =>
    obtain ⟨c,rest,first⟩ := List.exists_cons_of_length_eq_add_one length
    obtain ⟨w,hpop,wf,items⟩ := hw.popFront
    rw [first] at hpop items nodup length opened
    obtain ⟨absent,nodup⟩ := List.nodup_cons.mp nodup
    let T' : Pooler := { T with
      waiters := w, chans := Function.update T.chans c { T.chans c with closed := true } }
    have others {c' : Nat} (hc' : c' ∈ rest) : T'.chans c' = T.chans c' := by
      refine Function.update_of_ne ?_ ..
      rintro rfl
      exact absent hc'
    obtain ⟨w',hclose,wf',items'⟩ := ih T' wf (by simpa [T',items] using length) (by simpa [T',items] using nodup)
      (fun c' hc' => by
        have hc' : c' ∈ rest := by simpa [T',items] using hc'
        rw [others hc']
        exact opened c' (List.mem_cons_of_mem c hc'))
    have next : closeWaiters (n + 1 + 1) T = closeWaiters (n + 1) T' := by
      simp [closeWaiters,hpop,opened c List.mem_cons_self,T']
    have chans : (fun c' => if c' ∈ T'.waiters.items then { T'.chans c' with closed := true } else T'.chans c') =
        fun c' => if c' ∈ T.waiters.items then { T.chans c' with closed := true } else T.chans c' := by
      funext c'
      rw [first,show T'.waiters.items = rest from items]
      rcases eq_or_ne c' c with rfl | ne
      · simp [absent,T']
      · simp [ne,T']
    exact ⟨w',by rw [next,hclose,chans],wf',items'⟩

end Pooler
end Pggat.Poolers
