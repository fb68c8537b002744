/-
  **The journal of state modifications** (`core/state/journal.go` and
  `core/state/journal_arbitrum.go`), as far as it does not touch the `StateDB`:
  the kinds of entries, the address an entry dirties, and the bookkeeping of
  `dirties`, `zombieEntries` and the stack of valid revisions.

  What an entry does to the `StateDB` when it is reverted is in `StateDB.lean`.
-/
import GethArb.Types

namespace GethArb

open GoMap List Option

/-- The `journalEntry` implementations. -/
inductive JournalEntry where
  | createObjectChange (account : Address)
  | createZombieChange (account : Address)
  | createContractChange (account : Address)
  | selfDestructChange (account : Address)
  | balanceChange (account : Address) (prev : U256)
  | nonceChange (account : Address) (prev : U64)
  | storageChange (account : Address) (key prevvalue origvalue : Hash)
  | codeChange (account : Address) (prevCode : Bytes)
  | refundChange (prev : U64)
  | addLogChange (txhash : Hash)
  | touchChange (account : Address)
  | accessListAddAccountChange (address : Address)
  | accessListAddSlotChange (address : Address) (slot : Hash)
  | transientStorageChange (account : Address) (key prevalue : Hash)
  | wasmActivation (moduleHash : Hash)
  | cacheWasm (moduleHash : Hash) (version : BitVec 16) (tag : BitVec 32) (debug : Bool)
  | evictWasm (moduleHash : Hash) (version : BitVec 16) (tag : BitVec 32) (debug : Bool)
deriving DecidableEq, Repr

def JournalEntry.isLog : JournalEntry → Bool
  | addLogChange _ => true
  | _ => false

def JournalEntry.dirtied : JournalEntry → Option Address
  | createObjectChange account => some account
  | createZombieChange account => some account
  | createContractChange _ => none
  | selfDestructChange account => some account
  | balanceChange account _ => some account
  | nonceChange account _ => some account
  | storageChange account _ _ _ => some account
  | codeChange account _ => some account
  | refundChange _ => none
  | addLogChange _ => none
  | touchChange account => some account
  | accessListAddAccountChange _ => none
  | accessListAddSlotChange _ _ => none
  | transientStorageChange _ _ _ => none
  | wasmActivation _ => none
  | cacheWasm _ _ _ _ => none
  | evictWasm _ _ _ _ => none

/-- `isZombie`: only a `createZombieChange` implements `possibleZombie`. -/
def JournalEntry.isZombie : JournalEntry → Bool
  | createZombieChange _ => true
  | _ => false

structure Revision where
  id : Nat
  journalIndex : Nat
  unexpectedBalanceDelta : Int
deriving DecidableEq, Repr

structure Journal where
  zombieEntries : GoMap Address Int
  entries : List JournalEntry
  dirties : GoMap Address Int
  validRevisions : List Revision
  nextRevisionId : Nat
deriving DecidableEq

/-- The RIPEMD-160 precompile, whose touch survives a revert. -/
def ripemd : Address := 3

variable {dirties : GoMap Address Int} (m : GoMap Address Int)

namespace Journal

def new : Journal := ⟨∅, [], ∅, [], 0⟩

/-- `reset`.  The source clears every map but `zombieEntries`. -/
def reset (j : Journal) : Journal :=
  { j with entries := [], validRevisions := [], dirties := ∅, nextRevisionId := 0 }

def length (j : Journal) : Nat := j.entries.length

/-- `m[addr]++` on a counter map. -/
def increment (m : GoMap Address Int) (addr : Address) : GoMap Address Int :=
  m.insert addr (m.get addr + 1)

/-- `if m[addr]--; m[addr] == 0 { delete(m, addr) }` on a counter map. -/
def decrement (m : GoMap Address Int) (addr : Address) : GoMap Address Int :=
  if m.get addr - 1 = 0 then m.erase addr else m.insert addr (m.get addr - 1)

def append (j : Journal) (entry : JournalEntry) : Journal :=
  match entry.dirtied with
  | none => { j with entries := j.entries ++ [entry] }
  | some addr =>
    { j with
      entries := j.entries ++ [entry]
      dirties := increment j.dirties addr
      zombieEntries := if entry.isZombie then increment j.zombieEntries addr else j.zombieEntries }

def dirty (j : Journal) (addr : Address) : Journal :=
  { j with dirties := increment j.dirties addr }

def touchChange (j : Journal) (address : Address) : Journal :=
  let j := j.append (.touchChange address)
  if address = ripemd then j.dirty address else j

/-- The part of the loop body of `revert` that drops the dirty tracking of an
    undone entry.  The zombie counter is only looked at when the dirty counter
    reaches zero. -/
def dropDirty (j : Journal) (entry : JournalEntry) : Journal :=
  match entry.dirtied with
  | none => j
  | some addr =>
    { j with
      dirties := decrement j.dirties addr
      zombieEntries :=
        if j.dirties.get addr - 1 = 0 ∧ entry.isZombie then decrement j.zombieEntries addr
        else j.zombieEntries }

/-- `snapshot`, given the current balance delta. -/
def snapshot (j : Journal) (unexpectedBalanceDelta : Int) : Nat × Journal :=
  (j.nextRevisionId,
    { j with
      nextRevisionId := j.nextRevisionId + 1
      validRevisions :=
        j.validRevisions ++ [⟨j.nextRevisionId, j.length, unexpectedBalanceDelta⟩] })

/-- The lookup of `revertToSnapshot`: the position of the revision with the given
    id in the stack of valid ones; `none` is the panic of an unknown id. -/
def findRevision (j : Journal) (revid : Nat) : Option (Nat × Revision) :=
  let idx := search j.validRevisions.length fun i =>
    match j.validRevisions[i]? with
    | some r => decide (revid ≤ r.id)
    | none => false
  match j.validRevisions[idx]? with
  | none => none
  | some r => if r.id = revid then some (idx, r) else none

/-! ### The dirty counters -/

/-- The number of entries that dirty an address. -/
def dirtyCount (entries : List JournalEntry) (addr : Address) : Nat :=
  entries.countP fun e => e.dirtied = some addr

theorem get_increment (addr a : Address) :
    (increment m addr).get a = if a = addr then m.get a + 1 else m.get a := by
  unfold increment
  rw [get_insert]
  split_ifs with h
  · rw [h]
  · rfl

theorem get_decrement (addr a : Address) :
    (decrement m addr).get a = if a = addr then m.get a - 1 else m.get a := by
  unfold decrement
  split
  · rename_i hzero
    rw [get_erase]
    split
    · rename_i h
      rw [h, hzero]
      rfl
    · rfl
  · rw [get_insert]
    split
    · rename_i h
      rw [h]
    · rfl

/-- A counter map that counts the entries `es`, and the RIPEMD precompile possibly
    more often.  It stores no counter below one. -/
structure Counts (es : List JournalEntry) (dirties : GoMap Address Int) : Prop where
  covers : ∀ a, (dirtyCount es a : Int) ≤ dirties.get a
  precise : ∀ a, a ≠ ripemd → dirties.get a = dirtyCount es a
  positive : ∀ a n, dirties.lookup a = some n → 0 < n

variable {es : List JournalEntry}

theorem Counts.nonneg (h : Counts es dirties) (a : Address) : 0 ≤ dirties.get a :=
  (Int.natCast_nonneg _).trans (h.covers a)

/-- Without zero counters, a map is determined by the counters it holds. -/
theorem lookup_eq_of_get_eq {m m' : GoMap Address Int} {a : Address}
    (hm : ∀ n, m.lookup a = some n → 0 < n) (hm' : ∀ n, m'.lookup a = some n → 0 < n)
    (h : m.get a = m'.get a) : m.lookup a = m'.lookup a := by
  unfold GoMap.get at h
  cases hl : m.lookup a with
  | none =>
    cases hl' : m'.lookup a with
    | none => rfl
    | some n' =>
      rw [hl, hl'] at h
      have := hm' n' hl'
      simp only [getD_none, getD_some, Int.default_eq_zero] at h
      omega
  | some n =>
    have hpos := hm n hl
    cases hl' : m'.lookup a with
    | none =>
      rw [hl, hl'] at h
      simp only [getD_none, getD_some, Int.default_eq_zero] at h
      omega
    | some n' =>
      rw [hl, hl'] at h
      simpa using h

theorem Counts.positive_increment (h : Counts es dirties) (addr : Address) {a : Address} {n : Int}
    (hl : (increment dirties addr).lookup a = some n) : 0 < n := by
  have hn := h.nonneg addr
  exact forall_insert (P := fun _ n => 0 < n) h.positive (by omega) a n hl

theorem dirtyCount_append (es : List JournalEntry) (e : JournalEntry) (a : Address) :
    dirtyCount (es ++ [e]) a = dirtyCount es a + if e.dirtied = some a then 1 else 0 := by
  unfold dirtyCount
  simp

variable {j k : Journal}

theorem get_dropDirty_dirties (j : Journal) (e : JournalEntry) (a : Address) :
    (j.dropDirty e).dirties.get a = j.dirties.get a - if e.dirtied = some a then 1 else 0 := by
  unfold dropDirty
  cases hd : e.dirtied with
  | none => simp
  | some addr =>
    simp only [get_decrement]
    by_cases ha : a = addr
    · simp [ha]
    · simp [ha, Ne.symm ha]

/-- Dropping the dirty tracking of the newest entry keeps the older ones counted. -/
theorem Counts.dropDirty {e : JournalEntry} (h : Counts (es ++ [e]) j.dirties) :
    Counts es (j.dropDirty e).dirties := by
  refine ⟨fun a => ?_, fun a hr => ?_, fun a n hl => ?_⟩
  · have hc := h.covers a
    rw [dirtyCount_append] at hc
    rw [get_dropDirty_dirties]
    push_cast at hc
    omega
  · have hc := h.precise a hr
    rw [dirtyCount_append] at hc
    rw [get_dropDirty_dirties]
    push_cast at hc
    omega
  · unfold Journal.dropDirty at hl
    cases hd : e.dirtied with
    | none =>
      rw [hd] at hl
      exact h.positive a n hl
    | some addr =>
      have hc := h.covers addr
      rw [dirtyCount_append, hd, if_pos rfl] at hc
      simp only [hd, decrement] at hl
      split at hl
      · rw [lookup_erase_ite] at hl
        split at hl
        · cases hl
        · exact h.positive a n hl
      · exact forall_insert (P := fun _ n => 0 < n) h.positive (by omega) a n hl

/-- The same for a whole suffix of entries, newest first. -/
theorem Counts.dropDirties {fs : List JournalEntry} (h : Counts (es ++ fs) j.dirties) :
    Counts es (fs.foldr (fun e j => j.dropDirty e) j).dirties := by
  induction fs generalizing es with
  | nil => simpa using h
  | cons e fs ih =>
    have h' : Counts (es ++ [e]) (fs.foldr (fun e j => j.dropDirty e) j).dirties :=
      ih (by simpa using h)
    exact h'.dropDirty

/-! ### Well-formed journals -/

/-- What holds of the journal of every `StateDB` a program can reach. -/
structure WF (j : Journal) : Prop where
  counts : Counts j.entries j.dirties
  sorted : j.validRevisions.Pairwise fun r r' => r.id < r'.id
  bounded : ∀ r ∈ j.validRevisions, r.id < j.nextRevisionId

theorem wf_new : WF new where
  counts := ⟨fun a => by simp [new, dirtyCount], fun a _ => by simp [new, dirtyCount],
    fun a n h => by simp [new] at h⟩
  sorted := Pairwise.nil
  bounded r h := by cases h

theorem WF.reset : WF j.reset where
  counts := ⟨fun a => by simp [Journal.reset, dirtyCount],
    fun a _ => by simp [Journal.reset, dirtyCount], fun a n h => by simp [Journal.reset] at h⟩
  sorted := Pairwise.nil
  bounded r h := by cases h

theorem append_revisions (j : Journal) (e : JournalEntry) :
    (j.append e).validRevisions = j.validRevisions ∧
      (j.append e).nextRevisionId = j.nextRevisionId ∧ (j.append e).entries = j.entries ++ [e] := by
  unfold append
  split <;> exact ⟨rfl, rfl, rfl⟩

theorem get_append_dirties (j : Journal) (e : JournalEntry) (a : Address) :
    (j.append e).dirties.get a = j.dirties.get a + if e.dirtied = some a then 1 else 0 := by
  unfold append
  cases hd : e.dirtied with
  | none => simp
  | some addr =>
    simp only [get_increment]
    by_cases ha : a = addr
    · simp [ha]
    · simp [ha, Ne.symm ha]

theorem WF.append (h : WF j) (e : JournalEntry) : WF (j.append e) := by
  obtain ⟨hrev, hnext, hentries⟩ := j.append_revisions e
  refine ⟨⟨fun a => ?_, fun a ha => ?_, ?_⟩, by rw [hrev]; exact h.sorted,
    by rw [hrev, hnext]; exact h.bounded⟩
  · have hc := h.counts.covers a
    rw [hentries, dirtyCount_append, get_append_dirties]
    push_cast
    omega
  · have hc := h.counts.precise a ha
    rw [hentries, dirtyCount_append, get_append_dirties]
    push_cast
    omega
  · unfold Journal.append
    split
    · exact h.counts.positive
    · exact fun a n hl => h.counts.positive_increment _ hl

theorem WF.dirty_ripemd (h : WF j) : WF (j.dirty ripemd) where
  counts := by
    refine ⟨fun a => ?_, fun a ha => ?_, fun a n hl => h.counts.positive_increment _ hl⟩
    · have hc := h.counts.covers a
      simp only [dirty, get_increment]
      split <;> omega
    · simp only [dirty, get_increment, if_neg ha]
      exact h.counts.precise a ha
  sorted := h.sorted
  bounded := h.bounded

theorem WF.snapshot (h : WF j) (delta : Int) : WF (j.snapshot delta).2 where
  counts := h.counts
  sorted := by
    simp only [Journal.snapshot, List.pairwise_append]
    refine ⟨h.sorted, pairwise_singleton _ _, fun r hr r' hr' => ?_⟩
    rw [mem_singleton.mp hr']
    exact h.bounded r hr
  bounded r hr := by
    simp only [Journal.snapshot, List.mem_append, List.mem_singleton] at hr ⊢
    rcases hr with hr | rfl
    · exact Nat.lt_succ_of_lt (h.bounded r hr)
    · exact Nat.lt_succ_self _

/-! ### Writing to a journal -/

/-- What the operations of a transaction do to the journal: they append entries, and
    touching the RIPEMD precompile dirties it once more. -/
inductive Written : Journal → Journal → Prop where
  | refl (j : Journal) : Written j j
  | append {j k : Journal} (h : Written j k) (e : JournalEntry) : Written j (k.append e)
  | dirty {j k : Journal} (h : Written j k) : Written j (k.dirty ripemd)

theorem Written.trans {l : Journal} (h : Written j k) (h' : Written k l) : Written j l := by
  induction h' with
  | refl => exact h
  | append _ e ih => exact ih.append e
  | dirty _ ih => exact ih.dirty

theorem Written.touchChange (h : Written j k) (addr : Address) :
    Written j (k.touchChange addr) := by
  simp only [Journal.touchChange]
  split_ifs with heq
  · rw [heq]
    exact (h.append _).dirty
  · exact h.append _

theorem Written.wf (h : Written j k) (hj : WF j) : WF k := by
  induction h with
  | refl => exact hj
  | append _ e ih => exact ih.append e
  | dirty _ ih => exact ih.dirty_ripemd

/-- Only snapshots and reverts touch the stack of revisions. -/
theorem Written.validRevisions (h : Written j k) : k.validRevisions = j.validRevisions := by
  induction h with
  | refl => rfl
  | append _ e ih => exact (append_revisions _ e).1.trans ih
  | dirty _ ih => exact ih

/-! ### Finding a revision -/

theorem findRevision_some {revid idx : Nat} {r : Revision}
    (h : j.findRevision revid = some (idx, r)) :
    j.validRevisions[idx]? = some r ∧ r.id = revid := by
  unfold findRevision at h
  simp only at h
  split at h
  · cases h
  rename_i r' hr'
  split at h
  · rename_i hid
    obtain ⟨rfl, rfl⟩ := Prod.mk.inj (Option.some.inj h)
    exact ⟨hr', hid⟩
  · cases h

/-- Ids grow along the stack of revisions, so the binary search finds the one
    it is looking for. -/
theorem findRevision_eq {older newer : List Revision} {r : Revision}
    (hsorted : j.validRevisions.Pairwise fun r r' => r.id < r'.id)
    (hj : j.validRevisions = older ++ r :: newer) :
    j.findRevision r.id = some (older.length, r) := by
  rw [hj, pairwise_append] at hsorted
  obtain ⟨-, hnewer, holder⟩ := hsorted
  have hidx : (search j.validRevisions.length fun i =>
      match j.validRevisions[i]? with
      | some r' => decide (r.id ≤ r'.id)
      | none => false) = older.length := by
    apply search_eq
    · simp [hj]
    · intro k hk
      have hget : j.validRevisions[k]? = some older[k] := by
        rw [hj, getElem?_append_left hk, getElem?_eq_getElem hk]
      have hlt := holder older[k] (getElem_mem hk) r mem_cons_self
      simp only [hget, decide_eq_false_iff_not]
      omega
    · intro k hk hlen
      obtain ⟨r', hr'⟩ : ∃ r', (r :: newer)[k - older.length]? = some r' := by
        rw [hj, length_append] at hlen
        exact ⟨_, getElem?_eq_getElem (by omega)⟩
      have hget : j.validRevisions[k]? = some r' := by
        rw [hj, getElem?_append_right hk, hr']
      simp only [hget, decide_eq_true_eq]
      rcases mem_cons.mp (mem_of_getElem? hr') with rfl | hmem
      · exact le_refl _
      · exact le_of_lt ((pairwise_cons.mp hnewer).1 r' hmem)
  unfold findRevision
  simp only [hidx]
  rw [hj]
  simp

end Journal

end GethArb
