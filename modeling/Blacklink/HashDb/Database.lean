import Mathlib.Algebra.BigOperators.Group.Finset.Piecewise
import Mathlib.Data.Fintype.BigOperators
import Mathlib.Tactic.Ring
import Blacklink.Base.Run
import Blacklink.HashDb.Connection

/-!
# The hash database and its connections

Model of the shared state of `HashDatabaseLMDB` (`client/HashDatabaseLMDB.h:68-126`) and of any
number of connections, each used by one thread at a time, that run their operations interleaved
action by action. What LMDB answers is part of the event: every call may fail with any error. The
database itself is a map that a successful commit changes. `shutdown` is not called by anything and
is left out, as is the pool the idle connections wait in.
-/

namespace Blacklink.HashDb

open Blacklink.Base

/-- `txnRead`: no handle, a handle that was reset, or an open read transaction. -/
inductive ReadTxn where
  | null
  | reset
  | active
  deriving DecidableEq

/-- How far a thread is in the resize protocol. -/
inductive Role where
  | none
  /-- Waits for the resize of another thread. -/
  | waiter
  /-- Has set `STATE_WANT_RESIZE` and waits for the transactions to end. -/
  | wanting
  /-- Has returned from `mayResize.wait()`. -/
  | granted
  /-- Has set `STATE_RESIZE`. -/
  | resizing
  /-- Has set `STATE_NORMAL` again and has to notify `resizeComplete`. -/
  | completing
  /-- Has released the last transaction and has to notify `mayResize`. -/
  | notifying
  deriving DecidableEq

/-- A connection and the thread that uses it. `txnRead` and `buf` are fields of the source; the
open write transactions are kept with the change made in the last one. The rest is bookkeeping:
the operation in progress, how many transactions were added and not released, how often the
operation has met `MDB_MAP_FULL`, the role in the resize protocol, what `mdb_get` gave with the
contents of `buf` at that time, and whether the update has taken effect: its change is committed,
or it has found nothing to update. -/
structure Local where
  txnRead : ReadTxn
  buf : Bytes
  writeTxns : Nat
  staged : Option (TTHValue × Change)
  op : Option Op
  held : Int
  mapFull : Nat
  role : Role
  seen : Option (Except Int Bytes × Bytes)
  applied : Bool

namespace Local

/-- A new connection. -/
def new : Local := ⟨.null, [], 0, none, none, 0, 0, .none, none, false⟩

/-- An operation begins. -/
def start (l : Local) (op : Op) : Local :=
  { l with op := some op, mapFull := 0, role := .none, seen := none, applied := false }

/-- `~HashDatabaseConnection`, and a new connection in its place. -/
def close (l : Local) : Local := { l with txnRead := .null, buf := [] }

/-- An error code was given to the operation. -/
def note (l : Local) (error : Int) : Local :=
  if error = mdbMapFull then { l with mapFull := l.mapFull + 1 } else l

/-- The role after the critical section of `HashDatabaseLMDB::resizeMap`. -/
def enterResize (l : Local) (prev new : SharedState) : Local :=
  if prev = .resize ∨ prev = .wantResize then { l with role := .waiter }
  else if new = .wantResize then { l with role := .wanting }
  else { l with role := .resizing }

/-- What an action with its response does to the connection. -/
def next (l : Local) : (a : Action) → a.Response → Local
  | .addTransaction, added => if added then { l with held := l.held + 1 } else l
  | .releaseTransaction, (state, n) =>
    { l with
      held := l.held - 1
      role := if state = .wantResize ∧ n = 0 then .notifying else l.role }
  | .beginRead, error => if error = 0 then { l with txnRead := .active } else l
  | .renewRead, error => if error = 0 then { l with txnRead := .active } else l
  | .abortRead, _ => { l with txnRead := .null }
  | .resetRead, _ => { l with txnRead := if l.txnRead = .null then .null else .reset }
  | .beginWrite, error =>
    if error = 0 then { l with writeTxns := l.writeTxns + 1, staged := none } else l
  | .abortWrite, _ => { l with writeTxns := l.writeTxns - 1, staged := none }
  | .get _, val =>
    { l with
      seen := some (val, l.buf)
      applied := l.op.any fun op => op.outcome l.buf val = .keeps }
  | .change key change, error =>
    if error = 0 then { l with staged := some (key, change) } else l.note error
  | .commit, error =>
    { l.note error with
      writeTxns := l.writeTxns - 1
      staged := none
      applied := l.applied || decide (error = 0) }
  | .fillBuf _ _, buf => { l with buf := buf }
  | .enterResize, (prev, new) => l.enterResize prev new
  | .waitMayResize, _ => { l with role := .granted }
  | .startResize, result => if result then { l with role := .resizing } else l
  | .notifyMayResize, _ => { l with role := .none }
  | .getSharedState, state => if state = .normal then { l with role := .none } else l
  | .completeResize, _ => { l with role := .completing }
  | .notifyResizeComplete, _ => { l with role := .none }
  | .hasTxnRead, _ => l
  | .dbiOpen _, _ => l
  | .cursorOpen, _ => l
  | .cursorWalk, _ => l
  | .envStat, _ => l
  | .envInfo, _ => l
  | .setMapsize _, _ => l
  | .waitResizeComplete, _ => l
  | .notShutdown, _ => l

end Local

/-- The fields of `HashDatabaseLMDB` that the connections share, the two events being set or not,
with the map size and the committed contents of the LMDB environment. -/
structure Shared where
  sharedState : SharedState
  numTxn : Int
  resizeComplete : Bool
  mayResize : Bool
  mapsize : Nat
  db : TTHValue → Option Bytes

/-- What LMDB answers to a call: the error, and the data if there is none. -/
structure Env where
  error : Int
  value : Bytes
  entries : List (Bytes × Bytes)
  stat : Nat × Nat

/-- A change of one key. -/
def Change.apply (db : TTHValue → Option Bytes) (key : TTHValue) :
    Change → TTHValue → Option Bytes
  | put val => Function.update db key (some val)
  | del => Function.update db key none

namespace Shared

/-- The state `HashDatabaseLMDB::resizeMap` sets. -/
def stateAfterEnter (s : Shared) : SharedState :=
  if s.sharedState = .resize ∨ s.sharedState = .wantResize then s.sharedState
  else if s.numTxn = 0 then .resize
  else .wantResize

/-- What an action gives; `none` while the thread has to wait. -/
def reply (s : Shared) (l : Local) (env : Env) : (a : Action) → Option a.Response
  | .addTransaction =>
    match s.sharedState with
    | .normal => some true
    | .shutdown => some false
    | .resize => none
    | .wantResize => none
  | .releaseTransaction => some (s.sharedState, s.numTxn - 1)
  | .hasTxnRead => some (l.txnRead ≠ .null)
  | .get _ => some (if env.error = 0 then .ok env.value else .error env.error)
  | .fillBuf bufSize data => some (fillBuf l.buf bufSize data)
  | .cursorWalk => some env.entries
  | .envStat => some (if env.error = 0 then .ok env.stat else .error env.error)
  | .envInfo => some (if env.error = 0 then .ok s.mapsize else .error env.error)
  | .enterResize => some (s.sharedState, s.stateAfterEnter)
  | .waitMayResize => if s.mayResize then some () else none
  | .startResize => some (s.sharedState ≠ .shutdown)
  | .waitResizeComplete => if s.resizeComplete then some () else none
  | .notShutdown => some (s.sharedState ≠ .shutdown)
  | .getSharedState => some s.sharedState
  | .beginRead => some env.error
  | .renewRead => some env.error
  | .abortRead => some ()
  | .resetRead => some ()
  | .beginWrite => some env.error
  | .abortWrite => some ()
  | .dbiOpen _ => some env.error
  | .change _ _ => some env.error
  | .commit => some env.error
  | .cursorOpen => some env.error
  | .setMapsize _ => some env.error
  | .notifyMayResize => some ()
  | .completeResize => some ()
  | .notifyResizeComplete => some ()

/-- The contents of the database after a commit. -/
def commit (s : Shared) (staged : Option (TTHValue × Change)) : Shared :=
  match staged with
  | some (key, change) => { s with db := change.apply s.db key }
  | none => s

/-- What the critical section of `HashDatabaseLMDB::resizeMap` does. -/
def enterResize (s : Shared) (prev new : SharedState) : Shared :=
  if prev = .resize ∨ prev = .wantResize then s
  else
    { s with
      sharedState := new
      resizeComplete := false
      mayResize := if new = .wantResize then false else s.mayResize }

/-- What an action with its response does to the shared state. -/
def next (s : Shared) (l : Local) : (a : Action) → a.Response → Shared
  | .addTransaction, added => if added then { s with numTxn := s.numTxn + 1 } else s
  | .releaseTransaction, _ => { s with numTxn := s.numTxn - 1 }
  | .commit, error => if error = 0 then s.commit l.staged else s
  | .setMapsize size, error => if error = 0 then { s with mapsize := size } else s
  | .enterResize, (prev, new) => s.enterResize prev new
  | .startResize, result => if result then { s with sharedState := .resize } else s
  | .notifyMayResize, _ => { s with mayResize := true }
  | .completeResize, _ =>
    if s.sharedState ≠ .shutdown then { s with sharedState := .normal } else s
  | .notifyResizeComplete, _ => { s with resizeComplete := true }
  | .hasTxnRead, _ => s
  | .beginRead, _ => s
  | .renewRead, _ => s
  | .abortRead, _ => s
  | .resetRead, _ => s
  | .beginWrite, _ => s
  | .abortWrite, _ => s
  | .dbiOpen _, _ => s
  | .get _, _ => s
  | .change _ _, _ => s
  | .fillBuf _ _, _ => s
  | .cursorOpen, _ => s
  | .cursorWalk, _ => s
  | .envStat, _ => s
  | .envInfo, _ => s
  | .waitMayResize, _ => s
  | .waitResizeComplete, _ => s
  | .notShutdown, _ => s
  | .getSharedState, _ => s

end Shared

/-- A connection with what is left of its operation. -/
structure Conn where
  code : Code Answer
  state : Local

/-- The database with the connections `ι`. -/
structure World (ι : Type) where
  shared : Shared
  conns : ι → Conn

/-- An operation begins, a thread performs its next action, or an idle connection is closed. -/
inductive Event (ι : Type) where
  | start (i : ι) (op : Op)
  | act (i : ι) (env : Env)
  | close (i : ι)

namespace World

variable {ι : Type} [DecidableEq ι]

/-- The database after `open`, with the contents `db`; no connection has done anything. -/
def init (ι : Type) (mapsize : Nat) (db : TTHValue → Option Bytes) : World ι :=
  { shared := ⟨.normal, 0, false, false, mapsize, db⟩
    conns := fun _ => ⟨.ret .failed, .new⟩ }

/-- The connection `i` becomes `c`. -/
def set (w : World ι) (i : ι) (c : Conn) : World ι :=
  { w with conns := Function.update w.conns i c }

/-- A thread performs its next action, unless it has to wait or its operation has returned. -/
def act (w : World ι) (i : ι) (env : Env) : World ι :=
  match (w.conns i).code with
  | .ret _ => w
  | .act a code =>
    match w.shared.reply (w.conns i).state env a with
    | none => w
    | some r =>
      { shared := w.shared.next (w.conns i).state a r
        conns := Function.update w.conns i ⟨code r, (w.conns i).state.next a r⟩ }

/-- One step of the system. -/
def step (w : World ι) : Event ι → World ι
  | .start i op =>
    if (w.conns i).code.returned then w.set i ⟨op.code, (w.conns i).state.start op⟩ else w
  | .act i env => w.act i env
  | .close i =>
    if (w.conns i).code.returned then
      w.set i { w.conns i with state := (w.conns i).state.close }
    else w

/-- The event is a step of a thread whose response meets `may`. -/
def Relies (may : Local → (a : Action) → a.Response → Prop) (w : World ι) : Event ι → Prop
  | .act i env => ∀ a code r, (w.conns i).code = .act a code →
      w.shared.reply (w.conns i).state env a = some r → may (w.conns i).state a r
  | _ => True

/-- What an event that lets a thread act can do. -/
theorem act_cases (w : World ι) (i : ι) (env : Env) :
    w.act i env = w ∨ ∃ a code r, (w.conns i).code = .act a code ∧
      w.shared.reply (w.conns i).state env a = some r ∧
      w.act i env =
        { shared := w.shared.next (w.conns i).state a r
          conns := Function.update w.conns i ⟨code r, (w.conns i).state.next a r⟩ } := by
  rw [act]
  split
  · exact .inl rfl
  · next a code hcode =>
    split
    · exact .inl rfl
    · next r hr => exact .inr ⟨a, code, r, hcode, hr, rfl⟩

/-- Every connection keeps to the contract from here on. -/
def Keeps (C : Contract Local Action Action.Response) (post : Local → Answer → Prop)
    (w : World ι) : Prop :=
  ∀ i, Meets C post (w.conns i).state (w.conns i).code

omit [DecidableEq ι] in
/-- Where an operation has returned, its end holds. -/
theorem Keeps.post {C : Contract Local Action Action.Response} {post : Local → Answer → Prop}
    {w : World ι} (h : w.Keeps C post) {i : ι} (hret : (w.conns i).code.returned = true) :
    ∃ x, (w.conns i).code = .ret x ∧ post (w.conns i).state x := by
  have hi := h i
  cases hcode : (w.conns i).code with
  | ret x =>
    rw [hcode] at hi
    exact ⟨x, rfl, hi⟩
  | act a code =>
    rw [hcode] at hret
    cases hret

private theorem forall_update {P : Conn → Prop} {f : ι → Conn} {i : ι} {c : Conn}
    (h : ∀ j, P (f j)) (hc : P c) (j : ι) : P (Function.update f i c j) := by
  rcases eq_or_ne j i with rfl | hne
  · rwa [Function.update_self]
  · rw [Function.update_of_ne hne]
    exact h j

/-- A step changes one connection: a property of all of them is kept if the three ways to change
one keep it. -/
theorem forall_step {P : Conn → Prop} {w : World ι} (e : Event ι) (h : ∀ i, P (w.conns i))
    (hstart : ∀ (c : Conn) (op : Op), c.code.returned = true → P c → P ⟨op.code, c.state.start op⟩)
    (hact : ∀ i env a code r, e = .act i env → (w.conns i).code = .act a code →
      w.shared.reply (w.conns i).state env a = some r → P (w.conns i) →
      P ⟨code r, (w.conns i).state.next a r⟩)
    (hclose : ∀ c : Conn, c.code.returned = true → P c → P ⟨c.code, c.state.close⟩) (i : ι) :
    P ((w.step e).conns i) := by
  cases e with
  | start j op =>
    rw [World.step]
    split
    · next hret => exact forall_update h (hstart _ op hret (h j)) i
    · exact h i
  | act j env =>
    rcases w.act_cases j env with heq | ⟨a, code, r, hcode, hr, heq⟩
    · rw [World.step, heq]
      exact h i
    · rw [World.step, heq]
      exact forall_update h (hact j env a code r rfl hcode hr (h j)) i
  | close j =>
    rw [World.step]
    split
    · next hret => exact forall_update h (hclose _ hret (h j)) i
    · exact h i

/-- A step whose response the threads may rely on leaves every connection within the contract,
if the operations meet it and closing an idle connection does not matter. -/
theorem Keeps.step {C : Contract Local Action Action.Response} {post : Local → Answer → Prop}
    (hnext : C.next = Local.next)
    (hstart : ∀ op l x, post l x → Meets C post (l.start op) op.code)
    (hclose : ∀ l x, post l x → post l.close x) {w : World ι} (h : w.Keeps C post) (e : Event ι)
    (hrelies : w.Relies C.may e) : (w.step e).Keeps C post := by
  apply forall_step (P := fun c => Meets C post c.state c.code) e h
  · rintro ⟨code, l⟩ op hret hc
    cases code with
    | ret x => exact hstart op l x hc
    | act a code => cases hret
  · rintro i env a code r rfl hcode hr hi
    rw [hcode] at hi
    have hafter := hi.2 r (hrelies a code r hcode hr)
    rwa [hnext] at hafter
  · rintro ⟨code, l⟩ hret hc
    cases code with
    | ret x => exact hclose l x hc
    | act a code => cases hret

/-! ### The count of transactions -/

/-- The shared count and what the thread holds change together. -/
private theorem numTxn_next (s : Shared) (l : Local) (a : Action) (r : a.Response) :
    (s.next l a r).numTxn = s.numTxn + ((l.next a r).held - l.held) := by
  cases a <;> simp only [Shared.next, Local.next, Shared.enterResize, Local.enterResize,
    Shared.commit, Local.note] <;> (try split_ifs) <;> (try split) <;> (simp; try omega)

variable [Fintype ι]

/-- The count is the sum of the transactions that were added and not released. -/
def HeldCounted (w : World ι) : Prop :=
  w.shared.numTxn = ∑ i, (w.conns i).state.held

private theorem sum_held_update (f : ι → Conn) (i : ι) (c : Conn) :
    ∑ j, (Function.update f i c j).state.held =
      (∑ j, (f j).state.held) + (c.state.held - (f i).state.held) := by
  have hupdate : (fun j => (Function.update f i c j).state.held) =
      Function.update (fun j => (f j).state.held) i c.state.held := by
    ext j
    rcases eq_or_ne j i with rfl | hne
    · simp
    · simp [Function.update_of_ne hne]
  rw [hupdate, Finset.sum_update_of_mem (Finset.mem_univ i), Finset.sdiff_singleton_eq_erase,
    ← Finset.add_sum_erase Finset.univ (fun j => (f j).state.held) (Finset.mem_univ i)]
  ring

theorem HeldCounted.step {w : World ι} (h : w.HeldCounted) (e : Event ι) :
    (w.step e).HeldCounted := by
  cases e with
  | start i op =>
    rw [World.step]
    split
    · rw [HeldCounted, World.set, sum_held_update, ← h]
      simp [Local.start]
    · exact h
  | act i env =>
    rcases w.act_cases i env with heq | ⟨a, code, r, -, -, heq⟩
    · rw [World.step, heq]
      exact h
    · rw [World.step, heq, HeldCounted, sum_held_update, ← h, numTxn_next]
  | close i =>
    rw [World.step]
    split
    · rw [HeldCounted, World.set, sum_held_update, ← h]
      simp [Local.close]
    · exact h

omit [DecidableEq ι] in
theorem heldCounted_init (mapsize : Nat) (db : TTHValue → Option Bytes) :
    (init ι mapsize db).HeldCounted := by
  simp [HeldCounted, init, Local.new]

end World

end Blacklink.HashDb
