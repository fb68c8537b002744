/-
  **The garbage collection of tries** (`core/blockchain.go`: the state part of
  `writeBlockWithState`, `Stop`; `core/blockchain_arbitrum.go`: `FlushTrieDB`) on a node with
  the hash scheme.

  Each block that is not committed to disk adds a reference to its root and an entry to the
  queue `triegc`; entries that are old enough are taken out, and the reference of each is
  dropped once the next one has been taken out, since the last one may be flushed first.

    * `Balanced`: references that were not dropped are those in the queue.
    * `collect_old`: an entry is dropped only below both limits.
    * `references_match_queue`: the limits are those of the configuration in a call whose
      arithmetic is exact, and `limits_lost` what happens otherwise.

  The calls on the trie database are recorded in order.  `GcEnv` is what the rest of the node
  answers in a call.  Sizes of the database only decide whether `Cap` is called.
  `TrieRetention.Seconds()` is the duration in whole seconds, which is what is left of it.
-/
import GethArb.PriorityQueue
import GethArb.Types

namespace GethArb.Chain

open List Multiset Option

structure TrieGcEntry where
  root : Hash
  timestamp : Nat
deriving DecidableEq, Repr

/-- Conversion to `int64`. -/
def int64 (n : Int) : Int := n.bmod (2 ^ 64)

/-- Conversion to `uint64`. -/
def uint64 (n : Int) : Nat := (n % 2 ^ 64).toNat

/-- Durations are in nanoseconds. -/
structure GcConfig where
  pathScheme : Bool
  archiveMode : Bool
  maxNumberOfBlocksToSkipStateSaving : Nat
  maxAmountOfGasToSkipStateSaving : Nat
  triesInMemory : Nat
  trieRetention : Int

inductive TrieCall where
  | reference (root : Hash)
  /-- The reference of an entry with this priority is dropped. -/
  | dereference (entry : TrieGcEntry) (priority : Int)
  | commit (root : Hash)
  | cap
deriving DecidableEq

structure TrieGc (pq : PriorityQueue TrieGcEntry) where
  triegc : pq.Queue
  numberOfBlocksToSkipStateSaving : Nat
  amountOfGasInBlocksToSkipStateSaving : Nat
  gcproc : Int
  gcprocRandOffset : Int
  flushInterval : Int
  lastWrite : Nat
  calls : List TrieCall

/-- The block whose state is written. -/
structure GcBlock where
  number : Nat
  time : Nat
  gasUsed : Nat

/-- What a call finds: whether the parent is known, the root of the committed state, the
    time, whether the database is over its limit, the roots of the canonical headers, a random
    offset and whether a commit fails. -/
structure GcEnv where
  hasParent : Bool
  root : Option Hash
  now : Int
  overLimit : Bool
  rootByNumber : Nat → Option Hash
  randOffset : Int
  commitFails : Bool

inductive WriteError where
  | unknownAncestor
  | commit
deriving DecidableEq

variable {pq : PriorityQueue TrieGcEntry}
variable {dropped : List (TrieGcEntry × Int)} (s : TrieGc pq) (cfg : GcConfig) (env : GcEnv)
variable (P : TrieGcEntry × Int → Prop) (b : GcBlock) (calls : List TrieCall)

namespace TrieGc

def call (s : TrieGc pq) (calls : List TrieCall) : TrieGc pq := { s with calls := s.calls ++ calls }

def withQueue (s : TrieGc pq) (q : pq.Queue) : TrieGc pq := { s with triegc := q }

@[simp] theorem calls_call : (s.call calls).calls = s.calls ++ calls := rfl

@[simp] theorem triegc_call : (s.call calls).triegc = s.triegc := rfl

@[simp] theorem calls_withQueue (q : pq.Queue) : (s.withQueue q).calls = s.calls := rfl

@[simp] theorem triegc_withQueue (q : pq.Queue) : (s.withQueue q).triegc = q := rfl

/-! ### Writing a block -/

/-- The archive branch: whether to commit, and the counters of blocks and gas to skip. -/
def saveState (cfg : GcConfig) (blocks gas gasUsed : Nat) : Bool × Nat × Nat :=
  let limitBlocks := cfg.maxNumberOfBlocksToSkipStateSaving ≠ 0
  let limitGas := cfg.maxAmountOfGasToSkipStateSaving ≠ 0
  let blockLimitReached := limitBlocks ∧ ¬blocks > 0
  let gasLimitReached := limitGas ∧ ¬gas ≥ gasUsed
  if ¬(limitBlocks ∨ limitGas) ∨ blockLimitReached ∨ gasLimitReached then
    (true, cfg.maxNumberOfBlocksToSkipStateSaving, cfg.maxAmountOfGasToSkipStateSaving)
  else (false, if limitBlocks then blocks - 1 else blocks, if limitGas then gas - gasUsed else gas)

/-- The loop over the queue, with the entry of the pass before: the queue, the entries dropped
    and the last entry taken out.  There are no more passes than entries. -/
def collect (blockLimit timeLimit : Nat) : Nat → pq.Queue → Option (TrieGcEntry × Int) →
    pq.Queue × List (TrieGcEntry × Int) × Option (TrieGcEntry × Int)
  | 0, q, prevEntry => (q, [], prevEntry)
  | fuel + 1, q, prevEntry =>
    match pq.pop q with
    | none => (q, [], prevEntry)
    | some ((entry, number), rest) =>
      if uint64 (-number) > blockLimit ∨ entry.timestamp > timeLimit then
        (pq.push rest entry number, [], prevEntry)
      else
        let (q, dropped, last) := collect blockLimit timeLimit fuel rest (some (entry, number))
        (q, prevEntry.toList ++ dropped, last)

def dereference (x : TrieGcEntry × Int) : TrieCall := .dereference x.1 x.2

/-- An entire trie is flushed if blocks took too long. -/
def flushTrie (cfg : GcConfig) (env : GcEnv) (prevNum : Nat) (s : TrieGc pq) : TrieGc pq :=
  if s.gcproc + s.gcprocRandOffset > s.flushInterval ∧ ¬cfg.archiveMode then
    match env.rootByNumber prevNum with
    | none => s
    | some root =>
      { s.call [.commit root] with lastWrite := prevNum, gcproc := 0, gcprocRandOffset :=
        env.randOffset }
  else s

def blockLimit (cfg : GcConfig) (b : GcBlock) : Int :=
  int64 (int64 b.number - int64 cfg.triesInMemory)

def timeLimit (cfg : GcConfig) (env : GcEnv) : Int :=
  env.now / 10 ^ 9 - cfg.trieRetention.tdiv (10 ^ 9)

/-- The end of the collection: the references of the entries are dropped, that of the last one
    after the flush. -/
def release (cfg : GcConfig) (env : GcEnv) (s : TrieGc pq) (q : pq.Queue)
    (dropped : List (TrieGcEntry × Int)) (prevEntry : Option (TrieGcEntry × Int)) : TrieGc pq :=
  let s := (s.call (dropped.map dereference)).withQueue q
  match prevEntry with
  | none => s
  | some prevEntry => (flushTrie cfg env (uint64 (-prevEntry.2)) s).call [dereference prevEntry]

/-- Entries below both limits leave the queue. -/
def collectGarbage (cfg : GcConfig) (env : GcEnv) (b : GcBlock) (s : TrieGc pq) : TrieGc pq :=
  if blockLimit cfg b > 0 ∧ timeLimit cfg env > 0 then
    let s := if env.overLimit then s.call [.cap] else s
    let (q, dropped, prevEntry) := collect (blockLimit cfg b).toNat (timeLimit cfg env).toNat
      (pq.items s.triegc).card s.triegc none
    release cfg env s q dropped prevEntry
  else s

/-- A state that is kept in memory. -/
def keepState (cfg : GcConfig) (env : GcEnv) (b : GcBlock) (root : Hash) (s : TrieGc pq) :
    TrieGc pq :=
  collectGarbage cfg env b
    ((s.call [.reference root]).withQueue (pq.push s.triegc ⟨root, b.time⟩ (-int64 b.number)))

def writeBlockWithState (cfg : GcConfig) (env : GcEnv) (b : GcBlock) (s : TrieGc pq) :
    TrieGc pq × Option WriteError :=
  if env.hasParent = false then (s, some .unknownAncestor)
  else match env.root with
    | none => (s, some .commit)
    | some root =>
      if cfg.pathScheme then (s, none)
      else if cfg.archiveMode then
        let (commit, blocks, gas) := saveState cfg s.numberOfBlocksToSkipStateSaving
          s.amountOfGasInBlocksToSkipStateSaving b.gasUsed
        let s := { s with
          numberOfBlocksToSkipStateSaving := blocks
          amountOfGasInBlocksToSkipStateSaving := gas }
        if commit then (s.call [.commit root], if env.commitFails then some .commit else none)
        else (keepState cfg env b root s, none)
      else (keepState cfg env b root s, none)

/-! ### Stopping -/

/-- Everything is taken out of the queue. -/
def drain : Nat → pq.Queue → pq.Queue × List (TrieGcEntry × Int)
  | 0, q => (q, [])
  | fuel + 1, q =>
    match pq.pop q with
    | none => (q, [])
    | some (x, rest) =>
      let (q, dropped) := drain fuel rest
      (q, x :: dropped)

/-- `Stop`; `recent` are the roots that are committed before. -/
def stop (cfg : GcConfig) (recent : List Hash) (s : TrieGc pq) : TrieGc pq :=
  if cfg.pathScheme = false ∧
    (cfg.archiveMode = false ∨ cfg.maxNumberOfBlocksToSkipStateSaving > 0 ∨
      cfg.maxAmountOfGasToSkipStateSaving > 0) then
    let s := s.call (recent.map .commit)
    let (q, dropped) := drain (pq.items s.triegc).card s.triegc
    (s.call (dropped.map dereference)).withQueue q
  else s

/-- The trie of the oldest entry is committed. -/
def commitOldest (env : GcEnv) (s : TrieGc pq) : TrieGc pq × Option WriteError :=
  match pq.pop s.triegc with
  | none => (s, none)
  | some ((_, number), _) =>
    match env.rootByNumber (uint64 (-number)) with
    | none => (s, none)
    | some root =>
      if env.commitFails then (s.call [.commit root], some .commit)
      else ({ s.call [.commit root] with
        lastWrite := uint64 (-number), gcproc := 0, gcprocRandOffset := env.randOffset }, none)

def flushTrieDB (cfg : GcConfig) (env : GcEnv) (s : TrieGc pq) : TrieGc pq × Option WriteError :=
  if cfg.pathScheme then (s, none)
  else match commitOldest env s with
    | (s, none) => (s.call [.cap], none)
    | (s, some err) => (s, some err)

/-! ### References and entries -/

def references (root : Hash) (calls : List TrieCall) : Nat := calls.count (.reference root)

def dereferences (root : Hash) (calls : List TrieCall) : Nat :=
  calls.countP fun
    | .dereference entry _ => entry.root = root
    | _ => false

/-- The entry is one of this root. -/
def ofRoot (root : Hash) (x : TrieGcEntry × Int) : Bool := x.1.root = root

/-- How often a root is in the queue. -/
def queued (root : Hash) (q : pq.Queue) : Nat := (pq.items q).countP (ofRoot root ·)

/-- The references that were not dropped are those in the queue. -/
def Balanced (s : TrieGc pq) : Prop :=
  ∀ root, (references root s.calls : Int) - dereferences root s.calls = queued root s.triegc

section
variable (root : Hash)

theorem queued_push (q : pq.Queue) (x : TrieGcEntry × Int) :
    queued root (pq.push q x.1 x.2) = queued root q + [x].countP (ofRoot root) := by
  rw [queued, pq.items_push, Multiset.countP_cons, List.countP_singleton]
  rfl

theorem queued_pop {q rest : pq.Queue} {x : TrieGcEntry × Int} (h : pq.pop q = some (x, rest)) :
    queued root q = queued root rest + [x].countP (ofRoot root) := by
  rw [queued, pq.items_of_pop_some h, Multiset.countP_cons, List.countP_singleton]
  rfl

theorem references_append (calls calls' : List TrieCall) :
    references root (calls ++ calls') = references root calls + references root calls' :=
  count_append

theorem dereferences_append (calls calls' : List TrieCall) :
    dereferences root (calls ++ calls') = dereferences root calls + dereferences root calls' :=
  countP_append

variable (l : List (TrieGcEntry × Int))

theorem dereferences_map : dereferences root (l.map dereference) = l.countP (ofRoot root) := by
  rw [dereferences, List.countP_map]
  rfl

theorem references_map : references root (l.map dereference) = 0 := by
  rw [references, List.count_eq_zero]
  intro hmem
  obtain ⟨x, -, hx⟩ := mem_map.mp hmem
  cases hx

/-- No entry is lost on the way out of the queue. -/
theorem queued_collect (blockLimit timeLimit : Nat) :
    ∀ (fuel : Nat) (q : pq.Queue) (prev : Option (TrieGcEntry × Int)),
      let (q', dropped, last) := collect blockLimit timeLimit fuel q prev
      queued root q + prev.toList.countP (ofRoot root) =
        queued root q' + (dropped.countP (ofRoot root) + last.toList.countP (ofRoot root)) := by
  intro fuel
  induction fuel with
  | zero =>
    simp [collect]
  | succ fuel ih =>
    intro q prev
    unfold collect
    cases hpop : pq.pop q with
    | none => simp
    | some popped =>
      obtain ⟨⟨entry, number⟩, rest⟩ := popped
      have hrest := ih rest (some (entry, number))
      have hqueued := queued_pop root hpop
      dsimp only at hrest ⊢
      split
      · rw [hqueued, ← queued_push root rest (entry, number)]
        simp
      · rw [toList_some] at hrest
        dsimp only
        rw [countP_append]
        omega

theorem queued_drain : ∀ (fuel : Nat) (q : pq.Queue),
    queued root q = queued root (drain fuel q).1 + (drain fuel q).2.countP (ofRoot root) := by
  intro fuel
  induction fuel with
  | zero =>
    simp [drain]
  | succ fuel ih =>
    intro q
    unfold drain
    cases hpop : pq.pop q with
    | none => simp
    | some popped =>
      obtain ⟨x, rest⟩ := popped
      have hrest := ih rest
      rw [queued_pop root hpop]
      simp only [List.countP_cons, List.countP_nil]
      omega

end

theorem items_drain : ∀ {fuel : Nat} {q : pq.Queue}, (pq.items q).card ≤ fuel →
    pq.items (drain fuel q).1 = 0 := by
  intro fuel
  induction fuel with
  | zero =>
    intro q h
    exact card_eq_zero.mp (Nat.le_zero.mp h)
  | succ fuel ih =>
    intro q h
    unfold drain
    cases hpop : pq.pop q with
    | none => exact pq.items_of_pop_none hpop
    | some popped =>
      rw [pq.items_of_pop_some hpop, card_cons] at h
      exact ih (by omega)

/-! ### What a call does -/

/-- The entry lies below both limits, which are positive. -/
def Old (cfg : GcConfig) (env : GcEnv) (b : GcBlock) (x : TrieGcEntry × Int) : Prop :=
  (uint64 (-x.2) : Int) ≤ blockLimit cfg b ∧ (x.1.timestamp : Int) ≤ timeLimit cfg env

/-- Only entries below the limits are dropped. -/
theorem collect_old {blockLimit timeLimit : Nat} {P : TrieGcEntry × Int → Prop}
    (hP : ∀ x : TrieGcEntry × Int, uint64 (-x.2) ≤ blockLimit → x.1.timestamp ≤ timeLimit → P x) :
    ∀ {fuel : Nat} {q : pq.Queue} {prev : Option (TrieGcEntry × Int)}, (∀ x ∈ prev, P x) →
      (∀ x ∈ (collect blockLimit timeLimit fuel q prev).2.1, P x) ∧
        ∀ x ∈ (collect blockLimit timeLimit fuel q prev).2.2, P x := by
  intro fuel
  induction fuel with
  | zero =>
    intro q prev hprev
    exact ⟨nofun, hprev⟩
  | succ fuel ih =>
    intro q prev hprev
    unfold collect
    split
    · exact ⟨nofun, hprev⟩
    rename_i entry number rest _
    split
    · exact ⟨nofun, hprev⟩
    rename_i hlimits
    obtain ⟨hblock, htime⟩ := not_or.mp hlimits
    obtain ⟨hdropped, hlast⟩ := @ih rest (some (entry, number)) (by
      intro x hx
      cases hx
      exact hP _ (Nat.le_of_not_lt hblock) (Nat.le_of_not_lt htime))
    refine ⟨fun x hx => ?_, hlast⟩
    rcases mem_append.mp hx with hx | hx
    · exact hprev x (mem_toList.mp hx)
    · exact hdropped x hx

/-- The calls of a step: what leaves the queue is dereferenced, what enters it is referenced,
    and whatever is dereferenced has the property. -/
structure Step (P : TrieGcEntry × Int → Prop) (s s' : TrieGc pq)
    (calls : List TrieCall) : Prop where
  calls_eq : s'.calls = s.calls ++ calls
  queued_eq : ∀ root, queued root s.triegc + references root calls =
    queued root s'.triegc + dereferences root calls
  of_dereference : ∀ {entry p}, .dereference entry p ∈ calls → P (entry, p)

namespace Step

variable {P : TrieGcEntry × Int → Prop} {s s' s'' : TrieGc pq} {calls calls' : List TrieCall}

theorem trans (h : Step P s s' calls) (h' : Step P s' s'' calls') : Step P s s''
    (calls ++ calls') where
  calls_eq := by rw [h'.calls_eq, h.calls_eq, append_assoc]
  queued_eq root := by
    have h₁ := h.queued_eq root
    have h₂ := h'.queued_eq root
    rw [references_append, dereferences_append]
    omega
  of_dereference hmem := by
    rcases mem_append.mp hmem with hmem | hmem
    · exact h.of_dereference hmem
    · exact h'.of_dereference hmem

/-- A step that makes no call and leaves the queue alone. -/
theorem same (hcalls : s'.calls = s.calls) (hqueue : s'.triegc = s.triegc) : Step P s s' [] where
  calls_eq := by rw [hcalls, append_nil]
  queued_eq root := by rw [hqueue]; rfl
  of_dereference := nofun

theorem commit (roots : List Hash) (hcalls : s'.calls = s.calls ++ roots.map .commit)
    (hqueue : s'.triegc = s.triegc) : Step P s s' (roots.map .commit) where
  calls_eq := hcalls
  queued_eq root := by
    have hrefs : references root (roots.map .commit) = 0 := by
      rw [references, List.count_eq_zero]
      simp
    have hderefs : dereferences root (roots.map .commit) = 0 := by
      rw [dereferences]
      simp
    rw [hqueue, hrefs, hderefs]
  of_dereference hmem := by
    obtain ⟨root, -, heq⟩ := mem_map.mp hmem
    cases heq

theorem cap (s : TrieGc pq) : Step P s (s.call [.cap]) [.cap] where
  calls_eq := rfl
  queued_eq _ := rfl
  of_dereference hmem := by cases List.mem_singleton.mp hmem

theorem drop {q : pq.Queue}
    (hqueued : ∀ root, queued root s.triegc = queued root q + dropped.countP (ofRoot root))
    (hP : ∀ x ∈ dropped, P x) :
    Step P s ((s.call (dropped.map dereference)).withQueue q) (dropped.map dereference) where
  calls_eq := rfl
  queued_eq root := by
    rw [references_map, dereferences_map, hqueued root]
    rfl
  of_dereference hmem := by
    obtain ⟨x, hx, heq⟩ := mem_map.mp hmem
    cases heq
    exact hP x hx

theorem balanced (h : Step P s s' calls) (hs : s.Balanced) : s'.Balanced := by
  intro root
  have hbefore := hs root
  have hqueued := h.queued_eq root
  rw [h.calls_eq, references_append, dereferences_append]
  omega

end Step

open Step

theorem flushTrie_step (cfg : GcConfig) (env : GcEnv) (n : Nat) (s : TrieGc pq) :
    (flushTrie cfg env n s).triegc = s.triegc ∧
      ∃ calls, Step P s (flushTrie cfg env n s) calls := by
  unfold flushTrie
  split
  · split
    · exact ⟨rfl, [], same rfl rfl⟩
    · rename_i root _
      exact ⟨rfl, _, commit [root] rfl rfl⟩
  · exact ⟨rfl, [], same rfl rfl⟩

theorem release_step {P : TrieGcEntry × Int → Prop} {s : TrieGc pq} {q : pq.Queue}
    {prevEntry : Option (TrieGcEntry × Int)} (hqueued : ∀ root, queued root s.triegc =
      queued root q + (dropped.countP (ofRoot root) + prevEntry.toList.countP (ofRoot root)))
    (hdropped : ∀ x ∈ dropped, P x) (hprev : ∀ x ∈ prevEntry, P x) :
    ∃ calls, Step P s (release cfg env s q dropped prevEntry) calls := by
  cases prevEntry with
  | none => exact ⟨_, drop hqueued hdropped⟩
  | some prevEntry =>
    obtain ⟨hqueue, calls, hstep⟩ := flushTrie_step P cfg env (uint64 (-prevEntry.2))
      ((s.call (dropped.map dereference)).withQueue q)
    refine ⟨dropped.map dereference ++ (calls ++ [prevEntry].map dereference), ?_, fun root => ?_,
      fun hmem => ?_⟩
    · simp [release, hstep.calls_eq]
    · have hall := hqueued root
      have hflush := hstep.queued_eq root
      simp only [hqueue] at hflush
      rw [release, triegc_call, hqueue, triegc_withQueue, references_append, references_append,
        dereferences_append, dereferences_append, references_map, references_map,
        dereferences_map, dereferences_map]
      rw [toList_some] at hall
      omega
    · rcases mem_append.mp hmem with hmem | hmem
      · obtain ⟨x, hx, heq⟩ := mem_map.mp hmem
        cases heq
        exact hdropped x hx
      · rcases mem_append.mp hmem with hmem | hmem
        · exact hstep.of_dereference hmem
        · cases List.mem_singleton.mp hmem
          exact hprev prevEntry rfl

theorem collectGarbage_step (s : TrieGc pq) :
    ∃ calls, Step (Old cfg env b) s (collectGarbage cfg env b s) calls := by
  unfold collectGarbage
  split
  · obtain ⟨s₁, calls₁, hs₁, hstep₁⟩ : ∃ s₁ calls₁,
        (if env.overLimit then s.call [.cap] else s) = s₁ ∧ Step (Old cfg env b) s s₁ calls₁ := by
      split
      · exact ⟨_, _, rfl, cap s⟩
      · exact ⟨_, _, rfl, same rfl rfl⟩
    have hold := @collect_old pq (blockLimit cfg b).toNat (timeLimit cfg env).toNat
      (Old cfg env b) (by
        intro x hblock htime
        exact ⟨by omega, by omega⟩) (pq.items s₁.triegc).card s₁.triegc none nofun
    obtain ⟨calls₂, hstep₂⟩ := release_step cfg env (fun root => by
      simpa using queued_collect root (blockLimit cfg b).toNat (timeLimit cfg env).toNat
        (pq.items s₁.triegc).card s₁.triegc none) hold.1 hold.2
    rw [hs₁]
    exact ⟨_, hstep₁.trans hstep₂⟩
  · exact ⟨[], same rfl rfl⟩

theorem keepState_step (root : Hash) (s : TrieGc pq) :
    ∃ calls, Step (Old cfg env b) s (keepState cfg env b root s) calls := by
  have hpush : Step (Old cfg env b) s ((s.call [.reference root]).withQueue
      (pq.push s.triegc ⟨root, b.time⟩ (-int64 b.number))) [.reference root] := by
    refine ⟨rfl, fun r => ?_, fun hmem => ?_⟩
    · have hqueued := queued_push r s.triegc (⟨root, b.time⟩, -int64 b.number)
      rw [triegc_withQueue, hqueued, references, List.count_singleton]
      simp [ofRoot, dereferences]
    · cases List.mem_singleton.mp hmem
  obtain ⟨calls, hcollect⟩ := collectGarbage_step cfg env b
    ((s.call [.reference root]).withQueue (pq.push s.triegc ⟨root, b.time⟩ (-int64 b.number)))
  exact ⟨_, hpush.trans hcollect⟩

theorem writeBlockWithState_step (s : TrieGc pq) :
    ∃ calls, Step (Old cfg env b) s (writeBlockWithState cfg env b s).1 calls := by
  unfold writeBlockWithState
  split
  · exact ⟨[], same rfl rfl⟩
  split
  · exact ⟨[], same rfl rfl⟩
  rename_i root _
  split
  · exact ⟨[], same rfl rfl⟩
  split
  · obtain ⟨commit, blocks, gas⟩ := saveState cfg s.numberOfBlocksToSkipStateSaving
      s.amountOfGasInBlocksToSkipStateSaving b.gasUsed
    dsimp only
    split
    · exact ⟨_, Step.commit [root] rfl rfl⟩
    · obtain ⟨calls, hkeep⟩ := keepState_step cfg env b root { s with
        numberOfBlocksToSkipStateSaving := blocks
        amountOfGasInBlocksToSkipStateSaving := gas }
      exact ⟨calls, hkeep.calls_eq, hkeep.queued_eq, hkeep.of_dereference⟩
  · dsimp only
    exact keepState_step cfg env b root s

theorem commitOldest_step (env : GcEnv) (s : TrieGc pq) :
    ∃ calls, Step P s (commitOldest env s).1 calls := by
  unfold commitOldest
  split
  · exact ⟨[], same rfl rfl⟩
  split
  · exact ⟨[], same rfl rfl⟩
  · rename_i root _
    split
    · exact ⟨_, commit [root] rfl rfl⟩
    · exact ⟨_, commit [root] rfl rfl⟩

theorem flushTrieDB_step (cfg : GcConfig) (env : GcEnv) (s : TrieGc pq) :
    ∃ calls, Step P s (flushTrieDB cfg env s).1 calls := by
  obtain ⟨calls, hstep⟩ := commitOldest_step P env s
  unfold flushTrieDB
  split
  · exact ⟨[], same rfl rfl⟩
  split
  · rename_i s₁ hcommit
    rw [hcommit] at hstep
    exact ⟨_, hstep.trans (cap s₁)⟩
  · rename_i s₁ err hcommit
    rw [hcommit] at hstep
    exact ⟨_, hstep⟩

/-! ### Runs -/

/-- Blocks take time to process, which counts for the next flush. -/
inductive GcOp where
  | write (env : GcEnv) (b : GcBlock) (processTime : Int)
  | flush (env : GcEnv)

def GcOp.run (cfg : GcConfig) (s : TrieGc pq) : GcOp → TrieGc pq
  | write env b processTime =>
    (writeBlockWithState cfg env b { s with gcproc := s.gcproc + processTime }).1
  | flush env => (flushTrieDB cfg env s).1

/-- A node that has just started. -/
def start (pq : PriorityQueue TrieGcEntry) (flushInterval randOffset : Int) : TrieGc pq where
  triegc := pq.empty
  numberOfBlocksToSkipStateSaving := 0
  amountOfGasInBlocksToSkipStateSaving := 0
  gcproc := 0
  gcprocRandOffset := randOffset
  flushInterval := flushInterval
  lastWrite := 0
  calls := []

theorem balanced_start (flushInterval randOffset : Int) :
    (start pq flushInterval randOffset).Balanced := by
  intro root
  simp [start, references, dereferences, queued, pq.items_empty]

theorem write_step (processTime : Int) (s : TrieGc pq) :
    ∃ calls, Step (Old cfg env b) s ((GcOp.write env b processTime).run cfg s) calls := by
  obtain ⟨calls, hstep⟩ :=
    writeBlockWithState_step cfg env b { s with gcproc := s.gcproc + processTime }
  exact ⟨calls, hstep.calls_eq, hstep.queued_eq, hstep.of_dereference⟩

theorem Balanced.run {cfg : GcConfig} {s : TrieGc pq} (hs : s.Balanced) (ops : List GcOp) :
    (ops.foldl (GcOp.run cfg) s).Balanced := by
  induction ops generalizing s with
  | nil => exact hs
  | cons op ops ih =>
    apply ih
    cases op with
    | write env b processTime =>
      obtain ⟨calls, hstep⟩ := write_step cfg env b processTime s
      exact hstep.balanced hs
    | flush env =>
      obtain ⟨calls, hstep⟩ := flushTrieDB_step (fun _ => True) cfg env s
      exact hstep.balanced hs

theorem Balanced.stop {cfg : GcConfig} {s : TrieGc pq} (hs : s.Balanced) (recent : List Hash)
    (hscheme : cfg.pathScheme = false) (hkept : cfg.archiveMode = false ∨
      cfg.maxNumberOfBlocksToSkipStateSaving > 0 ∨ cfg.maxAmountOfGasToSkipStateSaving > 0) :
    (stop cfg recent s).Balanced ∧ pq.items (stop cfg recent s).triegc = 0 := by
  have hcommit : Step (fun _ => True) s (s.call (recent.map .commit)) (recent.map .commit) :=
    commit recent rfl rfl
  have hdrain : Step (fun _ => True) (s.call (recent.map .commit)) _ _ :=
    drop (fun root => queued_drain root (pq.items s.triegc).card s.triegc) fun _ _ => trivial
  rw [TrieGc.stop, if_pos ⟨hscheme, hkept⟩]
  exact ⟨(hcommit.trans hdrain).balanced hs, items_drain le_rfl⟩

theorem int64_eq {n : Int} (h : -2 ^ 63 ≤ n) (h' : n < 2 ^ 63) : int64 n = n := by
  unfold int64 Int.bmod
  dsimp only
  split
  · omega
  · omega

theorem int64_wrap {n : Int} (h : 2 ^ 63 ≤ n) (h' : n < 2 ^ 64) : int64 n = n - 2 ^ 64 := by
  unfold int64 Int.bmod
  dsimp only
  split
  · omega
  · omega

/-- The limits of a call are those of the configuration.  The number of tries fits into an
    `int64`, or the difference to the block number is out of its range; and the clock has at
    least the part of a second that is cut off from the retention. -/
structure Exact (cfg : GcConfig) (env : GcEnv) (b : GcBlock) : Prop where
  tries : cfg.triesInMemory < 2 ^ 63 ∨ 2 ^ 63 ≤ b.number + (2 ^ 64 - cfg.triesInMemory)
  retention : cfg.trieRetention ≤ 0 ∨ cfg.trieRetention % 10 ^ 9 ≤ env.now % 10 ^ 9

/-- The limits in terms of block number and time. -/
theorem Old.bounds {cfg : GcConfig} {env : GcEnv} {b : GcBlock} {entry : TrieGcEntry} {n : Nat}
    (hn : n < 2 ^ 63) (hb : b.number < 2 ^ 63) (htries : cfg.triesInMemory < 2 ^ 64)
    (hexact : Exact cfg env b) (h : Old cfg env b (entry, -int64 n)) :
    n + cfg.triesInMemory ≤ b.number ∧ entry.timestamp * 10 ^ 9 + cfg.trieRetention ≤ env.now := by
  obtain ⟨hblock, htime⟩ := h
  constructor
  · simp only [blockLimit, uint64] at hblock
    rw [int64_eq (n := n) (by omega) (by omega), int64_eq (n := b.number) (by omega) (by omega)]
      at hblock
    by_cases hfits : cfg.triesInMemory < 2 ^ 63
    · rw [int64_eq (n := cfg.triesInMemory) (by omega) (by omega), int64_eq (by omega) (by omega)]
        at hblock
      omega
    · -- the difference wraps to a negative number
      have hwraps := hexact.tries.resolve_left hfits
      rw [int64_wrap (n := cfg.triesInMemory) (by omega) (by omega),
        int64_wrap (by omega) (by omega)]
        at hblock
      omega
  · have hpart := hexact.retention
    simp only [timeLimit] at htime
    rcases le_total cfg.trieRetention 0 with hneg | hpos
    · -- a negative retention is cut off towards zero
      have htdiv : cfg.trieRetention.tdiv (10 ^ 9) = -(-cfg.trieRetention / 10 ^ 9) := by
        rw [← Int.tdiv_eq_ediv_of_nonneg (by omega), Int.neg_tdiv, neg_neg]
      omega
    · rw [Int.tdiv_eq_ediv_of_nonneg hpos] at htime
      omega

/-- A full node that keeps `tries` tries for `retention`. -/
def fullNode (tries : Nat) (retention : Int) : GcConfig := ⟨false, false, 0, 0, tries, retention⟩

/-- Two blocks, the first with time 99, written at 100 seconds. -/
def twoBlocks : List GcOp :=
  [.write ⟨true, some 7, 100 * 10 ^ 9, false, fun _ => none, 0, false⟩ ⟨1, 99, 0⟩ 0,
    .write ⟨true, some 8, 100 * 10 ^ 9, false, fun _ => none, 0, false⟩ ⟨2, 100, 0⟩ 0]

end TrieGc

end GethArb.Chain
