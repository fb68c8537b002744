/-
  **Histories survive a crash as long as the persistent state needs them.**

  `DiskLayer.commit` works on three things at once: the freezer, whose appends and tail
  moves are durable only after a sync; the key-value store, whose batches are durable when
  they are written; and a frozen buffer that a background goroutine flushes.  Here the
  commit is taken apart into the steps between which another goroutine, or a crash, can
  come in (`Machine.threadStep`, `Machine.flushStep`).

  The bounds that hold in every state (`Retained`) are

      synced tail ≤ tail ≤ persistent state id ≤ synced items ≤ items.

  The tail moves only up to a persistent id that was read before, and that id never falls;
  the id moves only after a sync of the freezer, which has the history of the id by then.
  What a crash leaves is somewhere between what was synced and what was written, so
  `repairHistory` finds its target in range (`crash_retains_histories`).

  The machine runs every commit of the layer tree (`commit_runs`).
-/
import GethArb.PathCommit

namespace GethArb.Pathdb

open Nat List Frozen Buffer DiskLayer

/-! ### The machine -/

/-- Where the goroutine of a flush is. -/
inductive FlushPC where
  /-- `flush` was called -/
  | scheduled
  /-- the id was found to be aligned with the persistent state -/
  | checked
  /-- the freezer was synced -/
  | synced
  | done
  | failed
deriving DecidableEq

/-- A frozen buffer and its goroutine. -/
structure Flusher where
  buffer : Buffer
  root : Hash
  id : Nat
  pc : FlushPC

/-- What a disk layer has besides its frozen buffer. -/
structure Live where
  root : Hash
  id : Nat
  buffer : Buffer

/-- Where the goroutine that commits is. -/
inductive Thread where
  /-- between two commits -/
  | ready (dl : Live)
  /-- the history of `bottom` was written -/
  | appended (dl : Live) (bottom : DiffLayer) (force : Bool)
  /-- the persistent state id was read, and the tail is about to move below `newFirst` -/
  | pruning (dl : Live) (bottom : DiffLayer) (force : Bool) (newFirst : Nat)
  /-- `writeStateHistory` returned -/
  | decided (dl : Live) (bottom : DiffLayer) (flush : Bool)
  /-- the root to id mappings were written -/
  | stored (dl : Live) (bottom : DiffLayer) (flush : Bool)
  /-- waits for the flush it started -/
  | flushing (bottom : DiffLayer)
  /-- `commit` returned an error -/
  | failed

structure Machine where
  kv : KeyValue
  freezer : Freezer StateHistory
  /-- how many items, and which tail, the last sync made durable -/
  syncedItems : Nat
  syncedTail : Nat
  thread : Thread
  frozen : Option Flusher

namespace Machine

/-- The next step of a commit; `next` is the diff layer for a commit to start with.  `none` if
    the goroutine has to wait. -/
def threadStep (cfg : Config) (next : DiffLayer × Bool) (m : Machine) : Option Machine :=
  match m.thread with
  | .ready dl =>
    match writeStateHistory m.freezer next.1 dl.root with
    | .ok freezer => some { m with freezer := freezer, thread := .appended dl next.1 next.2 }
    | .error _ => some { m with thread := .failed }
  | .appended dl bottom force =>
    if cfg.stateHistory = 0 ∨ bottom.id - m.freezer.tail ≤ cfg.stateHistory then
      some { m with thread := .decided dl bottom force }
    else
      let newFirst := bottom.id - cfg.stateHistory + 1
      if m.kv.persistentStateID < newFirst then some { m with thread := .decided dl bottom true }
      else some { m with thread := .pruning dl bottom force newFirst }
  | .pruning dl bottom force newFirst =>
    match truncateFromTail m.freezer (newFirst - 1) with
    | .ok freezer => some { m with freezer := freezer, thread := .decided dl bottom force }
    | .error _ => some { m with thread := .failed }
  | .decided dl bottom flush =>
    some { m with
      kv := m.kv.writeStateIDs ⟨dl.root, dl.id, dl.buffer, none, false⟩ bottom
      thread := .stored dl bottom flush }
  | .stored dl bottom flush =>
    let combined := dl.buffer.commit bottom.nodes.toNodeSet bottom.states.toStateSet
    if cfg.full combined || flush then
      let start : Machine := { m with
        frozen := some ⟨combined, bottom.root, bottom.id, .scheduled⟩
        thread := if cfg.noAsyncFlush then .flushing bottom
          else .ready ⟨bottom.root, bottom.id, new⟩ }
      -- wait until the previous frozen buffer is fully flushed
      match m.frozen.map Flusher.pc with
      | none => some start
      | some .done => some start
      | some .failed => some { m with thread := .failed }
      | _ => none
    else some { m with thread := .ready ⟨bottom.root, bottom.id, combined⟩ }
  | .flushing bottom =>
    match m.frozen.map Flusher.pc with
    | some .done => some { m with frozen := none, thread := .ready ⟨bottom.root, bottom.id, new⟩ }
    | some .failed => some { m with thread := .failed }
    | _ => none
  | .failed => none

/-- The next step of the flush; `ok` tells whether the sync or the write of the batch succeeds. -/
def flushStep (ok : Bool) (m : Machine) : Option Machine :=
  m.frozen.bind fun f =>
    match f.pc with
    | .scheduled =>
      if m.kv.persistentStateID + f.buffer.layers ≠ f.id then
        some { m with frozen := some { f with pc := .failed } }
      else some { m with frozen := some { f with pc := .checked } }
    | .checked =>
      if ok then
        some { m with
          syncedItems := m.freezer.ancients
          syncedTail := m.freezer.tail
          frozen := some { f with pc := .synced } }
      else some { m with frozen := some { f with pc := .failed } }
    | .synced =>
      if ok then
        some { m with kv := m.kv.flush f.buffer f.root f.id, frozen := some { f with pc := .done } }
      else some { m with frozen := some { f with pc := .failed } }
    | .done => none
    | .failed => none

/-! ### Crashes -/

/-- What a crash may leave of the freezer: appends and moves of the tail that were not synced
    may be lost. -/
structure Crashed (m : Machine) (freezer : Freezer StateHistory) : Prop where
  kept : ∃ n, m.syncedItems ≤ n ∧ freezer.items = m.freezer.items.take n
  tail_lower : m.syncedTail ≤ freezer.tail
  tail_upper : freezer.tail ≤ m.freezer.tail

end Machine

def truncateFromHead {α : Type} (store : Freezer α) (nhead : Nat) : Except LayerError (Freezer α) :=
  if store.ancients < nhead ∨ nhead < store.tail then
    .error (.headTruncationOutOfRange store.tail store.ancients nhead)
  else .ok { store with items := store.items.take nhead }

/-- `repairHistory`, for a database that is opened with a disk layer of the state `id`. -/
def repairHistory {α : Type} (freezer : Freezer α) (id : Nat) : Except LayerError (Freezer α) :=
  if id = 0 then .ok (if freezer.ancients ≠ 0 then ⟨[], 0⟩ else freezer)
    else truncateFromHead freezer id

namespace Machine

/-- The machine after the database was opened again without its journal.  The disk layer has
    the persistent state, with the root `root`, and what is in the freezer is on disk. -/
def reopen (root : Hash) (kv : KeyValue) (freezer : Freezer StateHistory) : Machine where
  kv := kv
  freezer := freezer
  syncedItems := freezer.ancients
  syncedTail := freezer.tail
  thread := .ready ⟨root, kv.persistentStateID, new⟩
  frozen := none

/-- One step of either goroutine. -/
inductive Step (cfg : Config) : Machine → Machine → Prop
  | thread {m m' : Machine} (next : DiffLayer × Bool) (h : m.threadStep cfg next = some m') :
      Step cfg m m'
  | flush {m m' : Machine} (ok : Bool) (h : m.flushStep ok = some m') : Step cfg m m'

/-- The bounds on the histories. -/
structure Bounded (m : Machine) : Prop where
  tail_mono : m.syncedTail ≤ m.freezer.tail
  tail_le : m.freezer.tail ≤ m.kv.persistentStateID
  persistent_le : m.kv.persistentStateID ≤ m.syncedItems
  synced_le : m.syncedItems ≤ m.freezer.ancients

/-- The states that commits reach from a database without a pending flush, with crashes and
    reopenings at any point. -/
inductive Reachable (cfg : Config) : Machine → Prop
  | start {m : Machine} (dl : Live) (hready : m.thread = .ready dl) (hfrozen : m.frozen = none)
      (hbounded : Bounded m) : Reachable cfg m
  | step {m m' : Machine} (h : Reachable cfg m) (hstep : Step cfg m m') : Reachable cfg m'
  | crash {m : Machine} {freezer freezer' : Freezer StateHistory} (root : Hash)
      (h : Reachable cfg m)
      (hcrash : Crashed m freezer)
        (hrepair : repairHistory freezer m.kv.persistentStateID = .ok freezer') :
      Reachable cfg (reopen root m.kv freezer')

/-! ### The invariant -/

/-- The diff layer of a commit has its history, and the tail moves at most to a persistent id. -/
def ThreadOk (m : Machine) : Prop :=
  match m.thread with
  | .ready _ => True
  | .appended _ bottom _ => bottom.id ≤ m.freezer.ancients
  | .pruning _ bottom _ newFirst => bottom.id ≤ m.freezer.ancients ∧
      newFirst ≤ m.kv.persistentStateID
  | .decided _ bottom _ => bottom.id ≤ m.freezer.ancients
  | .stored _ bottom _ => bottom.id ≤ m.freezer.ancients
  | .flushing _ => True
  | .failed => True

/-- A flush has the histories up to its id, on disk when it comes to write the batch, and does
    not lower the persistent id. -/
def FlushOk (m : Machine) (f : Flusher) : Prop :=
  match f.pc with
  | .scheduled => f.id ≤ m.freezer.ancients
  | .checked => f.id ≤ m.freezer.ancients ∧ m.kv.persistentStateID ≤ f.id
  | .synced => f.id ≤ m.syncedItems ∧ m.kv.persistentStateID ≤ f.id
  | .done => True
  | .failed => True

structure Retained (m : Machine) : Prop extends Bounded m where
  thread_ok : ThreadOk m
  flush_ok : ∀ f, m.frozen = some f → FlushOk m f

variable {m m' : Machine}

/-- Steps that keep the store and what was synced, and do not shorten the freezer, keep what is
    known of the flush. -/
theorem FlushOk.mono {f : Flusher} (h : FlushOk m f)
    (hid : m'.kv.persistentStateID = m.kv.persistentStateID)
    (hsynced : m'.syncedItems = m.syncedItems) (hlen : m.freezer.ancients ≤ m'.freezer.ancients) :
    FlushOk m' f := by
  unfold FlushOk at h ⊢
  rw [hid, hsynced]
  split at h
  · exact h.trans hlen
  · exact ⟨h.1.trans hlen, h.2⟩
  · exact h
  · trivial
  · trivial

/-- Steps of the thread that only move it on. -/
theorem Retained.move (h : Retained m) {t : Thread} (ht : ThreadOk { m with thread := t }) :
    Retained { m with thread := t } :=
  ⟨{ h with }, ht,
    fun f hf => (h.flush_ok f hf).mono rfl rfl (le_refl _)⟩

variable {freezer freezer' : Freezer StateHistory}

theorem ancients_writeStateHistory {dl : DiffLayer} {root : Hash}
    (h : writeStateHistory freezer dl root = .ok freezer') :
    freezer'.ancients = freezer.ancients + 1 ∧ dl.id = freezer'.ancients ∧ freezer'.tail =
      freezer.tail := by
  unfold writeStateHistory at h
  split at h
  · cases h
  rename_i hid
  cases h
  have hlen : (freezer.items ++ [newStateHistory dl.root root dl.block dl.states.accountOrigin
      dl.states.storageOrigin dl.states.rawStorageKey]).length = freezer.ancients + 1 :=
        length_append
  refine ⟨hlen, ?_, rfl⟩
  rw [not_not.mp hid]
  exact hlen.symm

open Machine

theorem Retained.threadStep {cfg : Config} {next : DiffLayer × Bool} (h : Retained m)
    (hstep : m.threadStep cfg next = some m') : Retained m' := by
  have hok := h.thread_ok
  unfold ThreadOk at hok
  unfold Machine.threadStep at hstep
  split at hstep
  · -- a commit starts: the history is written
    rename_i dl hthread
    split at hstep
    · rename_i freezer hwrite
      cases hstep
      obtain ⟨hlen, hid, htail⟩ := ancients_writeStateHistory hwrite
      have hle : m.freezer.ancients ≤ freezer.ancients := by omega
      refine ⟨⟨?_, ?_, h.persistent_le, h.synced_le.trans hle⟩, hid.le, ?_⟩
      · rw [htail]
        exact h.tail_mono
      · rw [htail]
        exact h.tail_le
      · exact fun f hf => (h.flush_ok f hf).mono rfl rfl hle
    · cases hstep
      exact h.move trivial
  · -- the tail and the persistent id are looked at
    rename_i dl bottom force hthread
    rw [hthread] at hok
    split at hstep
    · cases hstep
      exact h.move hok
    simp only at hstep
    split at hstep
    · cases hstep
      exact h.move hok
    · rename_i hnot
      cases hstep
      exact h.move ⟨hok, Nat.le_of_not_lt hnot⟩
  · -- the tail moves
    rename_i dl bottom force newFirst hthread
    rw [hthread] at hok
    split at hstep
    · rename_i freezer htrunc
      cases hstep
      unfold truncateFromTail at htrunc
      split at htrunc
      · cases htrunc
      cases htrunc
      have hold := h.tail_mono
      refine ⟨⟨?_, ?_, h.persistent_le, h.synced_le⟩, hok.1, ?_⟩
      · change m.syncedTail ≤ newFirst - 1
        omega
      · change newFirst - 1 ≤ m.kv.persistentStateID
        omega
      · exact fun f hf => (h.flush_ok f hf).mono rfl rfl (le_refl _)
    · cases hstep
      exact h.move trivial
  · -- the mappings are written
    rename_i dl bottom flush hthread
    rw [hthread] at hok
    cases hstep
    exact ⟨{ h with }, hok,
      fun f hf => (h.flush_ok f hf).mono rfl rfl (le_refl _)⟩
  · -- the buffer is frozen, or kept
    rename_i dl bottom flush hthread
    rw [hthread] at hok
    simp only at hstep
    split at hstep
    · have hstart : Retained { m with
          frozen := some ⟨dl.buffer.commit bottom.nodes.toNodeSet bottom.states.toStateSet,
            bottom.root,
            bottom.id, .scheduled⟩
          thread := if cfg.noAsyncFlush then .flushing bottom
            else .ready ⟨bottom.root, bottom.id, new⟩ } := by
        refine ⟨{ h with }, ?_, ?_⟩
        · unfold ThreadOk
          by_cases hasync : cfg.noAsyncFlush = true
          · simp only [hasync, if_true]
          · simp only [hasync]
            trivial
        · rintro f hf
          cases hf
          exact hok
      split at hstep
      · cases hstep
        exact hstart
      · cases hstep
        exact hstart
      · cases hstep
        exact h.move trivial
      · cases hstep
    · cases hstep
      exact h.move trivial
  · -- the wait for the flush ends
    rename_i bottom hthread
    split at hstep
    · cases hstep
      exact ⟨{ h with }, trivial,
        fun f hf => nomatch hf⟩
    · cases hstep
      exact h.move trivial
    · cases hstep
  · cases hstep

/-- The thread is not affected by a flush: it holds bounds on what a flush only raises. -/
theorem ThreadOk.mono (h : ThreadOk m) (hthread : m'.thread = m.thread)
    (hfreezer : m'.freezer = m.freezer) (hid : m.kv.persistentStateID ≤ m'.kv.persistentStateID) :
    ThreadOk m' := by
  unfold ThreadOk at h ⊢
  rw [hthread, hfreezer]
  split at h
  · trivial
  · exact h
  · exact ⟨h.1, h.2.trans hid⟩
  · exact h
  · exact h
  · trivial
  · trivial

theorem Retained.flushStep {ok : Bool} (h : Retained m) (hstep : m.flushStep ok = some m') :
    Retained m' := by
  obtain ⟨f, hf, hstep⟩ := Option.bind_eq_some_iff.mp hstep
  have hok := h.flush_ok f hf
  unfold FlushOk at hok
  -- a flush that gives up changes nothing
  have hfail : Retained { m with frozen := some { f with pc := .failed } } := by
    refine ⟨{ h with },
      h.thread_ok.mono rfl rfl (le_refl _), ?_⟩
    rintro f' hf'
    cases hf'
    trivial
  split at hstep
  · -- the check of the id
    rename_i hpc
    rw [hpc] at hok
    split at hstep
    · cases hstep
      exact hfail
    cases hstep
    refine ⟨{ h with },
      h.thread_ok.mono rfl rfl (le_refl _), ?_⟩
    rintro f' hf'
    cases hf'
    refine ⟨hok, ?_⟩
    change m.kv.persistentStateID ≤ f.id
    omega
  · -- the sync of the freezer
    rename_i hpc
    rw [hpc] at hok
    split at hstep
    · cases hstep
      refine ⟨⟨le_refl _, h.tail_le, h.persistent_le.trans h.synced_le, le_refl _⟩,
        h.thread_ok.mono rfl rfl (le_refl _), ?_⟩
      rintro f' hf'
      cases hf'
      exact hok
    · cases hstep
      exact hfail
  · -- the batch
    rename_i hpc
    rw [hpc] at hok
    split at hstep
    · cases hstep
      refine ⟨⟨h.tail_mono, h.tail_le.trans hok.2, hok.1, h.synced_le⟩,
        h.thread_ok.mono rfl rfl hok.2, ?_⟩
      rintro f' hf'
      cases hf'
      trivial
    · cases hstep
      exact hfail
  · cases hstep
  · cases hstep

/-- What a crash leaves is bounded by the persistent state id. -/
theorem Bounded.crashed (h : Bounded m) (hc : Crashed m freezer) :
    freezer.tail ≤ m.kv.persistentStateID ∧ m.kv.persistentStateID ≤ freezer.ancients := by
  refine ⟨hc.tail_upper.trans h.tail_le, ?_⟩
  obtain ⟨n, hn, hitems⟩ := hc.kept
  have hlen : freezer.ancients = min n m.freezer.ancients := by
    unfold Freezer.ancients
    rw [hitems, length_take]
  rw [hlen]
  exact le_min (h.persistent_le.trans hn) (h.persistent_le.trans h.synced_le)

theorem Bounded.reopen (h : Bounded m) (hc : Crashed m freezer) (root : Hash)
    (hrepair : repairHistory freezer m.kv.persistentStateID = .ok freezer') :
    Bounded (reopen root m.kv freezer') := by
  obtain ⟨htail, hitems⟩ := h.crashed hc
  have hbounds : freezer'.tail ≤ m.kv.persistentStateID ∧
    m.kv.persistentStateID ≤ freezer'.ancients := by
    unfold repairHistory at hrepair
    split at hrepair
    · rename_i hzero
      cases hrepair
      rw [hzero] at htail ⊢
      split
      · exact ⟨le_refl _, zero_le _⟩
      · exact ⟨htail, zero_le _⟩
    · unfold truncateFromHead at hrepair
      split at hrepair
      · cases hrepair
      cases hrepair
      refine ⟨htail, ?_⟩
      have hlen : (freezer.items.take m.kv.persistentStateID).length =
          min m.kv.persistentStateID freezer.ancients := length_take
      change m.kv.persistentStateID ≤ (freezer.items.take m.kv.persistentStateID).length
      rw [hlen]
      exact le_min (le_refl _) hitems
  exact ⟨le_refl _, hbounds.1, hbounds.2, le_refl _⟩

theorem Reachable.retained {cfg : Config} (h : Reachable cfg m) : Retained m := by
  induction h with
  | @start m dl hready hfrozen hbounded =>
    refine ⟨hbounded, ?_, ?_⟩
    · unfold ThreadOk
      rw [hready]
      trivial
    · intro f hf
      rw [hfrozen] at hf
      cases hf
  | step _ hstep ih =>
    cases hstep with
    | thread next hthread => exact ih.threadStep hthread
    | flush ok hflush => exact ih.flushStep hflush
  | crash root _ hcrash hrepair ih =>
    exact ⟨ih.toBounded.reopen hcrash root hrepair, trivial, fun f hf => nomatch hf⟩

end Machine

/-- **A crash leaves the histories of the persistent state.**  Whatever a crash leaves of the
    freezer, its tail is at most the persistent state id, it has at least as many items, the
    truncation of `repairHistory` succeeds, and every history above the tail that the
    persistent state needs for a rollback is there, as it was written. -/
theorem crash_retains_histories {cfg : Config} {m : Machine} (h : m.Reachable cfg)
    {freezer : Freezer StateHistory} (hcrash : m.Crashed freezer) :
    freezer.tail ≤ m.kv.persistentStateID ∧ m.kv.persistentStateID ≤ freezer.ancients ∧
      (∃ freezer', truncateFromHead freezer m.kv.persistentStateID = .ok freezer' ∧
        freezer'.ancients = m.kv.persistentStateID ∧ freezer'.tail = freezer.tail) ∧
      ∀ id, freezer.tail < id → id ≤ m.kv.persistentStateID →
        ∃ history, freezer.items[id - 1]? = some history ∧ m.freezer.items[id - 1]? =
          some history := by
  obtain ⟨htail, hitems⟩ := h.retained.toBounded.crashed hcrash
  refine ⟨htail, hitems, ?_, ?_⟩
  · have hrange : ¬(freezer.ancients < m.kv.persistentStateID ∨
      m.kv.persistentStateID < freezer.tail) := by omega
    refine ⟨_, if_neg hrange, ?_, rfl⟩
    exact length_take.trans (min_eq_left hitems)
  · intro id hlow hhigh
    obtain ⟨n, -, htake⟩ := hcrash.kept
    have hlt : id - 1 < freezer.items.length := by
      change m.kv.persistentStateID ≤ freezer.items.length at hitems
      omega
    obtain ⟨history, hget⟩ : ∃ history, freezer.items[id - 1]? = some history :=
      ⟨_, getElem?_eq_getElem hlt⟩
    refine ⟨history, hget, ?_⟩
    rw [htake, getElem?_take] at hget
    split at hget
    · exact hget
    · cases hget

/-- One commit is flushed, and the next has written its history.  That one is lost, and the one
    of the persistent state is not. -/
theorem crash_retains_histories_unsynced :
    ∃ (cfg : Config) (m : Machine) (freezer : Freezer StateHistory), m.Reachable cfg ∧
      m.Crashed freezer ∧ m.kv.persistentStateID = 1 ∧ m.freezer.ancients = 2 ∧
      freezer.ancients = 1 ∧ ∃ history, freezer.items[0]? = some history := by
  let cfg : Config := ⟨1, false, fun _ => false⟩
  let bottom (id : Nat) : DiffLayer :=
    ⟨BitVec.ofNat 256 (id + 1), id, 0, ⟨NodeSet.empty, ∅⟩, ⟨StateSet.empty, ∅, ∅⟩, 0⟩
  let start : Machine := ⟨⟨∅, ∅, ∅, 0, 0, ∅⟩, ⟨[], 0⟩, 0, 0, .ready ⟨1, 0, new⟩, none⟩
  have hbounded : start.Bounded := ⟨le_refl 0, le_refl 0, le_refl 0, le_refl 0⟩
  have hstart : start.Reachable cfg := .start _ rfl rfl hbounded
  have hstored := ((hstart.step (.thread (bottom 1, true) rfl)).step
    (.thread (bottom 1, true) rfl)).step (.thread (bottom 1, true) rfl)
  have hflushed := (((hstored.step (.thread (bottom 1, true) rfl)).step (.flush true rfl)).step
    (.flush true rfl)).step (.flush true rfl)
  obtain ⟨m, hreach, hid, hitems, hcrash⟩ : ∃ m : Machine, m.Reachable cfg ∧
      m.kv.persistentStateID = 1 ∧ m.freezer.ancients = 2 ∧
      m.Crashed ⟨[newStateHistory 2 1 0 ∅ ∅ false], 0⟩ :=
    ⟨_, hflushed.step (.thread (bottom 2, false) rfl), rfl, rfl, ⟨1, le_refl 1, rfl⟩, le_refl 0,
      le_refl 0⟩
  obtain ⟨history, hget, -⟩ :=
    (crash_retains_histories hreach hcrash).2.2.2 1 one_pos hid.ge
  exact ⟨cfg, m, _, hreach, hcrash, hid, hitems, rfl, history, hget⟩

/-! ### Commits of the layer tree -/

/-- The goroutine of a frozen buffer of the layer tree. -/
def Frozen.flusher (f : Frozen) : Flusher where
  buffer := f.buffer
  root := f.root
  id := f.id
  pc := match f.flush with
    | .pending => .scheduled
    | .done => .done
    | .failed => .failed

namespace Machine

/-- The machine between two commits into a disk layer. -/
def of (dl : DiskLayer) (kv : KeyValue) (freezer : Freezer StateHistory)
    (syncedItems syncedTail : Nat) :
    Machine where
  kv := kv
  freezer := freezer
  syncedItems := syncedItems
  syncedTail := syncedTail
  thread := .ready ⟨dl.root, dl.id, dl.buffer⟩
  frozen := dl.frozen.map flusher

/-- The machine in the middle of a commit into a disk layer. -/
def during (dl : DiskLayer) (kv : KeyValue) (freezer : Freezer StateHistory) (at_ : Live → Thread)
    (items tail : Nat) : Machine :=
  { of dl kv freezer items tail with thread := at_ ⟨dl.root, dl.id, dl.buffer⟩ }

/-- A run of the machine, whatever was synced before and on the way. -/
def Runs (cfg : Config) (m m' : Nat → Nat → Machine) : Prop :=
  ∀ items tail, ∃ items' tail', Relation.ReflTransGen (Step cfg) (m items tail) (m' items' tail')

theorem Runs.refl (cfg : Config) (m : Nat → Nat → Machine) : Runs cfg m m :=
  fun items tail => ⟨items, tail, Relation.ReflTransGen.refl⟩

variable {cfg : Config}

theorem Runs.trans {m₁ m₂ m₃ : Nat → Nat → Machine} (h : Runs cfg m₁ m₂) (h' : Runs cfg m₂ m₃) :
    Runs cfg m₁ m₃ := by
  intro items tail
  obtain ⟨items₂, tail₂, hrun⟩ := h items tail
  obtain ⟨items₃, tail₃, hrun'⟩ := h' items₂ tail₂
  exact ⟨items₃, tail₃, hrun.trans hrun'⟩

theorem Runs.of_thread {m m' : Nat → Nat → Machine} (next : DiffLayer × Bool)
    (h : ∀ items tail, (m items tail).threadStep cfg next = some (m' items tail)) : Runs cfg m m' :=
  fun items tail => ⟨items, tail, Relation.ReflTransGen.single (.thread next (h items tail))⟩

open Runs

variable {kv kv' : KeyValue} {freezer freezer' : Freezer StateHistory} {bottom : DiffLayer}

/-- The goroutine of a flush runs to its end. -/
theorem Runs.of_flush (cfg : Config) (f : Frozen) (thread : Thread) :
    Runs cfg (fun items tail => ⟨kv, freezer, items, tail, thread, some f.flusher⟩)
      fun items tail =>
        ⟨(f.run kv).2, freezer, items, tail, thread, some (f.run kv).1.flusher⟩ := by
  obtain ⟨buffer, root, id, flush⟩ := f
  cases flush with
  | pending =>
    intro items tail
    by_cases halign : kv.persistentStateID + buffer.layers ≠ id
    · refine ⟨items, tail, Relation.ReflTransGen.single (.flush true ?_)⟩
      simp only [run, if_pos halign]
      exact if_pos halign
    refine ⟨freezer.ancients, freezer.tail, ?_⟩
    have hcheck : flushStep true
      ⟨kv, freezer, items, tail, thread, some ⟨buffer, root, id, .scheduled⟩⟩ =
        some ⟨kv, freezer, items, tail, thread, some ⟨buffer, root, id, .checked⟩⟩ := if_neg halign
    refine Relation.ReflTransGen.head (.flush true hcheck) ?_
    refine Relation.ReflTransGen.head (.flush true rfl) ?_
    refine Relation.ReflTransGen.single (.flush true ?_)
    simp [flushStep, flusher, run, if_neg halign]
  | done | failed => exact refl cfg _

theorem Runs.of_settle (cfg : Config) (dl : DiskLayer) :
    Runs cfg (of dl kv freezer) (of (dl.settle kv).1 (dl.settle kv).2 freezer) := by
  obtain ⟨root, id, buffer, frozen, stale⟩ := dl
  cases frozen with
  | none => exact refl cfg _
  | some f => exact of_flush cfg f _

/-- `writeStateHistory`, step by step. -/
theorem Runs.of_writeStateHistory {dl : DiskLayer} {flush : Bool} (force : Bool)
    (h : dl.writeStateHistory cfg kv freezer bottom = .ok (flush, freezer')) :
    Runs cfg (of dl kv freezer) (during dl kv freezer' (.decided · bottom (force || flush))) := by
  obtain ⟨freezer₁, hwrite, h⟩ := bind_eq_ok.mp h
  have happend : Runs cfg (of dl kv freezer)
    (during dl kv freezer₁ (.appended · bottom force)) := by
    refine of_thread (bottom, force) fun items tail => ?_
    simp [threadStep, of, during, hwrite]
  refine happend.trans ?_
  by_cases hkeep : cfg.stateHistory = 0 ∨ bottom.id - freezer₁.tail ≤ cfg.stateHistory
  · -- nothing has to go
    have hres : (false, freezer₁) = (flush, freezer') := by
      by_cases hzero : cfg.stateHistory = 0
      · rw [if_pos hzero] at h
        exact Except.ok.inj h
      · rw [if_neg hzero, if_pos (hkeep.resolve_left hzero)] at h
        exact Except.ok.inj h
    cases hres
    rw [Bool.or_false]
    exact of_thread (bottom, force) fun items tail => if_pos hkeep
  obtain ⟨hzero, hlimit⟩ := not_or.mp hkeep
  rw [if_neg hzero, if_neg hlimit] at h
  by_cases hskip : kv.persistentStateID < bottom.id - cfg.stateHistory + 1
  · -- the buffer is flushed instead
    rw [if_pos hskip] at h
    cases h
    rw [Bool.or_true]
    exact of_thread (bottom, force) fun items tail => (if_neg hkeep).trans (if_pos hskip)
  · rw [if_neg hskip] at h
    obtain ⟨freezer₂, htrunc, h⟩ := bind_eq_ok.mp h
    cases h
    rw [Bool.or_false]
    have hdecide : Runs cfg (during dl kv freezer₁ (.appended · bottom force))
        (during dl kv freezer₁ (.pruning · bottom force (bottom.id - cfg.stateHistory + 1))) :=
      of_thread (bottom, force) fun items tail => (if_neg hkeep).trans (if_neg hskip)
    refine hdecide.trans (of_thread (bottom, force) fun items tail => ?_)
    simp only [threadStep, of, during, htrunc]

/-- The wait for the previous frozen buffer ends. -/
theorem Runs.of_waitFrozen (cfg : Config) {frozen : Option Frozen} (thread : Thread)
    (h : waitFrozen frozen kv = .ok kv') :
    ∃ f : Option Flusher, (frozen = none ∧ f = none ∨ f.map Flusher.pc = some .done) ∧
      Runs cfg (fun items tail => ⟨kv, freezer, items, tail, thread, frozen.map flusher⟩)
        fun items tail => ⟨kv', freezer, items, tail, thread, f⟩ := by
  cases frozen with
  | none =>
    cases h
    exact ⟨none, .inl ⟨rfl, rfl⟩, refl cfg _⟩
  | some f =>
    have hrun : Runs cfg (fun items tail => ⟨kv, freezer, items, tail, thread, some f.flusher⟩) _ :=
      of_flush cfg f thread
    simp only [waitFrozen, waitFlush] at h
    split at h
    · cases h
    rename_i f' kv₁ hnot heq
    cases h
    simp only [heq] at hrun
    refine ⟨some f'.flusher, .inr ?_, hrun⟩
    -- after a run the flush is over, and it did not fail
    obtain ⟨buffer, root, id, flush⟩ := f'
    cases flush with
    | failed => exact (hnot _ _ _ rfl).elim
    | done => rfl
    | pending =>
      obtain ⟨b, r, i, fl⟩ := f
      cases fl with
      | pending =>
        simp only [run] at heq
        split at heq
        · cases heq
        · cases heq
      | done | failed => cases heq

/-- The last part of `commit`, step by step. -/
theorem Runs.of_freeze {dl ndl : DiskLayer} {flush : Bool}
    (h : freeze cfg dl.frozen (dl.buffer.commit bottom.nodes.toNodeSet bottom.states.toStateSet)
      flush bottom kv = .ok (ndl, kv')) :
    Runs cfg (during dl kv freezer (.stored · bottom flush)) (of ndl kv' freezer) := by
  unfold freeze at h
  split at h
  · rename_i hfull
    obtain ⟨kv₁, hwait, h⟩ := bind_eq_ok.mp h
    obtain ⟨f, hf, hrun⟩ :=
      of_waitFrozen cfg (.stored ⟨dl.root, dl.id, dl.buffer⟩ bottom flush) hwait
    refine hrun.trans ?_
    -- the combined buffer is frozen
    generalize hcombined : dl.buffer.commit bottom.nodes.toNodeSet bottom.states.toStateSet =
      combined at h hfull
    have hstart : Runs cfg
        (fun items tail =>
          ⟨kv₁, freezer, items, tail, .stored ⟨dl.root, dl.id, dl.buffer⟩ bottom flush, f⟩)
        fun items tail => ⟨kv₁, freezer, items, tail,
          if cfg.noAsyncFlush then .flushing bottom else .ready ⟨bottom.root, bottom.id, new⟩,
          some ⟨combined, bottom.root, bottom.id, .scheduled⟩⟩ := by
      refine of_thread (bottom, flush) fun items tail => ?_
      simp only [threadStep, hcombined, hfull, if_true]
      rcases hf with ⟨-, hf⟩ | hf
      · simp only [hf, Option.map_none]
      · simp only [hf]
    refine hstart.trans ?_
    unfold schedule at h
    split at h
    · -- the flush is waited for
      rename_i hasync
      obtain ⟨kv₂, hflush, h⟩ := bind_eq_ok.mp h
      have hwait₂ : waitFrozen (some ⟨combined, bottom.root, bottom.id, .pending⟩) kv₁ = .ok kv₂ :=
        hflush
      obtain ⟨f₂, hf₂, hrun₂⟩ := of_waitFrozen cfg (.flushing bottom) hwait₂
      cases h
      rw [if_pos hasync]
      refine hrun₂.trans (of_thread (bottom, flush) fun items tail => ?_)
      rcases hf₂ with ⟨hnone, -⟩ | hf₂
      · cases hnone
      · simp only [threadStep, hf₂]
        rfl
    · rename_i hasync
      cases h
      rw [if_neg hasync]
      exact refl cfg _
  · rename_i hfull
    cases h
    exact of_thread (bottom, flush) fun items tail => if_neg hfull

/-- **Every commit of the layer tree is a run of the machine**, so what holds in every state
    of the machine holds between its commits. -/
theorem commit_runs {early force : Bool} {dl ndl : DiskLayer}
    (h : dl.commit cfg early force kv freezer bottom = .ok (ndl, kv', freezer')) :
    Runs cfg (of dl kv freezer) (of ndl kv' freezer') := by
  -- a flush that is running may end first
  obtain ⟨dl₁, kv₁, hearly, h⟩ : ∃ dl₁ kv₁, Runs cfg (of dl kv freezer) (of dl₁ kv₁ freezer) ∧
      dl₁.commit cfg false force kv₁ freezer bottom = .ok (ndl, kv', freezer') := by
    cases early with
    | true => exact ⟨_, _, of_settle cfg dl, h⟩
    | false => exact ⟨dl, kv, refl cfg _, h⟩
  refine hearly.trans ?_
  obtain ⟨⟨flush, freezer₁⟩, hwrite, h⟩ := bind_eq_ok.mp h
  obtain ⟨⟨ndl₁, kv₂⟩, hfreeze, h⟩ := bind_eq_ok.mp h
  cases h
  refine (of_writeStateHistory force hwrite).trans ?_
  have hstore : Runs cfg (during dl₁ kv₁ freezer' (.decided · bottom (force || flush)))
      (during dl₁ (kv₁.writeStateIDs dl₁ bottom) freezer' (.stored · bottom (force || flush))) :=
    of_thread (bottom, force) fun items tail => rfl
  exact hstore.trans (of_freeze hfreeze)

/-- The first commit, with a flush that is waited for. -/
theorem commit_runs_first :
    ∃ (cfg : Config) (dl ndl : DiskLayer) (kv kv' : KeyValue)
      (freezer freezer' : Freezer StateHistory)
      (bottom : DiffLayer), dl.commit cfg false true kv freezer bottom = .ok (ndl, kv', freezer') ∧
      kv.persistentStateID = 0 ∧ kv'.persistentStateID = 1 ∧
      Runs cfg (of dl kv freezer) (of ndl kv' freezer') := by
  let cfg : Config := ⟨1, true, fun _ => true⟩
  let dl : DiskLayer := ⟨1, 0, new, none, false⟩
  let bottom : DiffLayer := ⟨2, 1, 0, ⟨NodeSet.empty, ∅⟩, ⟨StateSet.empty, ∅, ∅⟩, 0⟩
  have h : dl.commit cfg false true ⟨∅, ∅, ∅, 0, 0, ∅⟩ ⟨[], 0⟩ bottom = .ok _ := rfl
  exact ⟨cfg, dl, _, _, _, _, _, bottom, h, rfl, rfl, commit_runs h⟩

end Machine

end GethArb.Pathdb
