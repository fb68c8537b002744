/-
  **The chain with its lock and its feeds** (`core/blockchain.go`: `reorg`, `writeHeadBlock`,
  `collectReceiptsAndLogs`, `writeBlockAndSetHead`, `SetCanonical`).

  `Reorg.lean` says what a reorganisation does to the database.  Here the same code is a
  computation that may fail half way, holds `txLookupLock` and sends events: an error leaves
  the chain as it is at that point.  `reorg_returns` connects the two.

    * `reorg_failed`: a call that fails before it takes the lock changes nothing.  A call that
      fails later has written the new blocks below the missing one, and keeps the lock.
    * `event_stream`: what a call that sets the head sends.
    * `setCanonical_of_run`: on a running chain `SetCanonical` of a stored block whose state is
      there returns, and keeps the markers.

  The receipts of a block are those that `ReadRawReceipts` and `DeriveFields` give back.  The
  garbage collection of tries in `writeBlockWithState` and the notification by
  `pushBlockChange` send nothing on these feeds and are modelled elsewhere; here they have an
  outcome only.  Reads of the lookup entries release the lock, so only writers block.
-/
import GethArb.Reorg
import GethArb.Receipt
import GethArb.Traced

namespace GethArb.Chain

open Forest Traced List ChainDb

/-- A log on its way to the subscribers, with its `Removed` mark. -/
structure SentLog where
  log : Log
  removed : Bool
deriving DecidableEq

structure ChainEvent where
  header : Header
  receipts : List Receipt
  transactions : List Hash
deriving DecidableEq

inductive LogFeed where
  | rmLogsFeed
  | logsFeed
deriving DecidableEq

/-- What is sent on one of the feeds. -/
inductive Sent where
  | chainFeed (event : ChainEvent)
  | logs (feed : LogFeed) (logs : List SentLog)
  | chainHeadFeed (header : Header)

inductive ChainError where
  | reorg (err : ReorgError)
  | unknownAncestor
  | chainStopped
  /-- The state could not be committed or recovered. -/
  | state
  /-- The call waits for a lock that nobody releases. -/
  | blocked
deriving DecidableEq

/-- A chain in operation: `BlockChain` as far as it changes when the head does. -/
structure LiveChain where
  db : ChainDb
  currentHeader : Header
  currentSnapBlock : Header
  receipts : GoMap Hash (List Receipt)
  txLookupLock : Bool

/-- The logs sent on a feed, all batches in a row. -/
def logsOn (feed : LogFeed) (events : List Sent) : List SentLog :=
  events.flatMap fun
    | .logs other logs => if other = feed then logs else []
    | _ => []

/-- What was sent on `chainFeed`. -/
def chainEvents (events : List Sent) : List ChainEvent :=
  events.filterMap fun
    | .chainFeed event => some event
    | _ => none

variable (feed : LogFeed)

theorem logsOn_append (events events' : List Sent) :
    logsOn feed (events ++ events') = logsOn feed events ++ logsOn feed events' :=
  flatMap_append

theorem chainEvents_append (events events' : List Sent) :
    chainEvents (events ++ events') = chainEvents events ++ chainEvents events' :=
  filterMap_append

abbrev ChainM := Traced Unit Sent LiveChain ChainError

variable {receipts : List Receipt} (logs : List SentLog)

namespace LiveChain

def receiptsOf (bc : LiveChain) (hash : Hash) : List Receipt := (bc.receipts.lookup hash).getD []

/-- The logs of a block as they are sent. -/
def logsOf (bc : LiveChain) (removed : Bool) (hash : Hash) : List SentLog :=
  (bc.receiptsOf hash).flatMap fun receipt => receipt.logs.map (⟨·, removed⟩)

def writeHeadBlock (bc : LiveChain) (block : Block) : LiveChain :=
  { bc with
    db := bc.db.writeHeadBlock block
    currentHeader := block.header
    currentSnapBlock := block.header }

/-- `txLookupLock` is taken or released. -/
def withLock (bc : LiveChain) (held : Bool) : LiveChain := { bc with txLookupLock := held }

@[simp] theorem logsOf_withLock (bc : LiveChain) (held removed : Bool) (hash : Hash) :
    (bc.withLock held).logsOf removed hash = bc.logsOf removed hash := rfl

theorem logsOf_congr {bc bc' : LiveChain} (h : bc'.receipts = bc.receipts) :
    bc'.logsOf = bc.logsOf := by
  funext removed hash
  simp [logsOf, receiptsOf, h]

@[simp] theorem logsOf_writeHeadBlock (bc : LiveChain) (block : Block) (removed : Bool)
    (hash : Hash) : (bc.writeHeadBlock block).logsOf removed hash = bc.logsOf removed hash := rfl

/-! ### Sending -/

def send (event : Sent) : ChainM Unit := observe fun _ _ => [event]

theorem send_bind {α : Type} (event : Sent) (f : Unit → ChainM α) (bc : LiveChain) :
    (send event >>= f) () bc = ((f () () bc).1, event :: (f () () bc).2) := rfl

/-- Logs that are left at the end of a loop. -/
def flushLogs (feed : LogFeed) (logs : List SentLog) : ChainM Unit :=
  if logs.length > 0 then send (.logs feed logs) else pure ()

/-- Logs that have become too many are sent in the middle of a loop; the result is what is
    still to be sent. -/
def sendFull (feed : LogFeed) (logs : List SentLog) : ChainM (List SentLog) :=
  if logs.length > 512 then do
    send (.logs feed logs)
    pure []
  else pure logs

/-! ### Reorganisation -/

/-- Ask the database. -/
def query {α : Type} (f : ChainDb → Except ReorgError α) : ChainM α :=
  fun _ bc => (((f bc.db).mapError .reorg, bc), [])

/-- `GetBlock`, where a missing block is an error. -/
def readBlock (h : Header) (err : ReorgError) : ChainM Block :=
  query fun db =>
    match db.getBlock h.hash h.number with
    | none => .error err
    | some block => .ok block

def collectLogs (block : Block) (removed : Bool) : ChainM (List SentLog) :=
  read fun bc => bc.logsOf removed block.header.hash

def lock : ChainM Unit := fun _ bc =>
  if bc.txLookupLock then ((.error .blocked, bc), [])
  else ((.ok (), bc.withLock true), [])

def unlock : ChainM Unit := modify (·.withLock false)

/-- The loop over the dropped blocks, lowest first, for the logs. -/
def sendRemoved : List SentLog → List Header → ChainM Unit
  | deletedLogs, [] => flushLogs .rmLogsFeed deletedLogs
  | deletedLogs, h :: rest => do
    let block ← readBlock h .invalidOldChain
    let logs ← collectLogs block true
    let deletedLogs ← sendFull .rmLogsFeed (deletedLogs ++ logs)
    sendRemoved deletedLogs rest

/-- The loop over the new blocks, lowest first: the transactions. -/
def applyNew : List Hash → List SentLog → List Header → ChainM (List Hash)
  | rebirthTxs, rebirthLogs, [] => do
    flushLogs .logsFeed rebirthLogs
    pure rebirthTxs
  | rebirthTxs, rebirthLogs, h :: rest => do
    let block ← readBlock h .invalidNewChain
    let logs ← collectLogs block false
    let rebirthLogs ← sendFull .logsFeed (rebirthLogs ++ logs)
    modify (·.writeHeadBlock block)
    applyNew (rebirthTxs ++ block.transactions) rebirthLogs rest

/-- What `reorg` does once the fork is known. -/
def exchange (oldChain newChain : List Header) (commonBlock : Header) : ChainM Unit := do
  sendRemoved [] oldChain.reverse
  let deletedTxs ← query (·.collectDeleted oldChain)
  let rebirthTxs ← applyNew [] [] newChain.tail.reverse
  modify fun bc =>
    { bc with
      db := bc.db.deleteIndexes (hashDifference deletedTxs rebirthTxs)
        (lastWritten newChain commonBlock) }

def reorg (oldHead newHead : Header) : ChainM Unit := do
  let (oldChain, newChain, commonBlock) ← query (·.fork oldHead newHead)
  lock
  exchange oldChain newChain commonBlock
  unlock

/-! ### Setting the head -/

/-- `ChainDb.writeKnownBlock` with its lock and its events. -/
def writeKnownBlock (block : Block) : ChainM Unit := do
  let current ← read (·.db.currentBlock)
  (if block.header.parentHash ≠ current.hash then reorg current block.header else pure ())
  modify (·.writeHeadBlock block)

/-- `writeBlockWithState`; `committed` tells whether the state could be committed. -/
def writeBlockWithState (block : Block) (receipts : List Receipt) (committed : Bool) :
    ChainM Unit := do
  let parent ← read (·.db.parent block.header)
  (if parent = none then throw .unknownAncestor else pure ())
  modify fun bc =>
    { bc with
      db := bc.db.writeBlock block
      receipts := bc.receipts.insert block.header.hash receipts }
  if committed then pure () else throw .state

def writeBlockAndSetHead (block : Block) (receipts : List Receipt) (logs : List Log)
    (committed emitHeadEvent : Bool) : ChainM Unit := do
  writeBlockWithState block receipts committed
  writeKnownBlock block
  send (.chainFeed ⟨block.header, [], []⟩)
  send (.chainFeed ⟨block.header, receipts, block.transactions⟩)
  flushLogs .logsFeed (logs.map (⟨·, false⟩))
  if emitHeadEvent then send (.chainHeadFeed block.header) else pure ()

/-- `SetCanonical`; `stopped` tells whether the chain is stopped, and `recovered` whether the
    state of the head is there or could be recovered. -/
def setCanonical (head : Block) (stopped recovered : Bool) : ChainM Unit := do
  (if stopped then throw .chainStopped else pure ())
  (if recovered then pure () else throw .state)
  writeKnownBlock head
  let receipts ← read (·.receiptsOf head.header.hash)
  let logs ← collectLogs head false
  send (.chainFeed ⟨head.header, receipts, head.transactions⟩)
  flushLogs .logsFeed logs
  send (.chainHeadFeed head.header)

/-! ### What the parts do -/

variable {α : Type} {bc bc' : LiveChain} {e : ChainError} {u : Unit} {events : List Sent}
  {f : ChainDb → Except ReorgError α}

theorem query_ok {a : α} (h : f bc.db = .ok a) : query f () bc = ((.ok a, bc), []) := by
  simp [query, h, Except.mapError]

theorem query_error {err : ReorgError} (h : f bc.db = .error err) :
    query f () bc = ((.error (.reorg err), bc), []) := by
  simp [query, h, Except.mapError]

theorem readBlock_some {h : Header} {block : Block}
    (hblock : bc.db.getBlock h.hash h.number = some block) (err : ReorgError) :
    readBlock h err () bc = ((.ok block, bc), []) :=
  query_ok (by simp only [hblock])

theorem readBlock_none {h : Header} (hblock : bc.db.getBlock h.hash h.number = none)
    (err : ReorgError) : readBlock h err () bc = ((.error (.reorg err), bc), []) :=
  query_error (by simp only [hblock])

/-- The events are batches of these logs on this feed. -/
structure Only (feed : LogFeed) (logs : List SentLog) (events : List Sent) : Prop where
  on : logsOn feed events = logs
  off : ∀ other, other ≠ feed → logsOn other events = []
  chain : chainEvents events = []

namespace Only

variable {feed : LogFeed} {logs logs' : List SentLog} {events events' : List Sent}

theorem nil (feed : LogFeed) : Only feed [] [] := ⟨rfl, fun _ _ => rfl, rfl⟩

theorem single (feed : LogFeed) (logs : List SentLog) : Only feed logs [.logs feed logs] where
  on := by simp [logsOn]
  off other hother := by simp [logsOn, hother.symm]
  chain := rfl

theorem append (h : Only feed logs events) (h' : Only feed logs' events') :
    Only feed (logs ++ logs') (events ++ events') where
  on := by rw [logsOn_append, h.on, h'.on]
  off other hother := by rw [logsOn_append, h.off other hother, h'.off other hother, nil_append]
  chain := by rw [chainEvents_append, h.chain, h'.chain, nil_append]

end Only

theorem flushLogs_eq (bc : LiveChain) :
    ∃ events, flushLogs feed logs () bc = ((.ok (), bc), events) ∧ Only feed logs events := by
  unfold flushLogs
  split
  · exact ⟨_, rfl, Only.single feed logs⟩
  · obtain rfl : logs = [] := length_eq_zero_iff.mp (by omega)
    exact ⟨_, rfl, Only.nil feed⟩

theorem sendFull_eq (bc : LiveChain) :
    ∃ rest sent events, sendFull feed logs () bc = ((.ok rest, bc), events) ∧
      Only feed sent events ∧ sent ++ rest = logs := by
  unfold sendFull
  split
  · exact ⟨_, logs, _, rfl, Only.single feed logs, append_nil logs⟩
  · exact ⟨_, [], _, rfl, Only.nil feed, rfl⟩

/-! ### The loops -/

/-- The logs of the dropped blocks are sent in the order of the list, up to a missing block. -/
theorem sendRemoved_spec (bc : LiveChain) (blocks : List Header) :
    ∀ pending, ∃ events,
      (sendRemoved pending blocks () bc = ((.ok (), bc), events) ∧ (bc.db.Keyed →
        Only .rmLogsFeed (pending ++ blocks.flatMap fun h => bc.logsOf true h.hash) events)) ∨
      (sendRemoved pending blocks () bc = ((.error (.reorg .invalidOldChain), bc), events) ∧
        ∃ h ∈ blocks, bc.db.getBlock h.hash h.number = none) := by
  induction blocks with
  | nil =>
    intro pending
    obtain ⟨events, hflush, honly⟩ := flushLogs_eq .rmLogsFeed pending bc
    exact ⟨events, .inl ⟨hflush, fun _ => by simpa using honly⟩⟩
  | cons header blocks ih =>
    intro pending
    cases hblock : bc.db.getBlock header.hash header.number with
    | none =>
      exact ⟨[], .inr ⟨bind_of_error (readBlock_none hblock _), header, mem_cons_self, hblock⟩⟩
    | some block =>
      obtain ⟨left, sent, first, hsent, honly, hsplit⟩ :=
        sendFull_eq .rmLogsFeed (pending ++ bc.logsOf true block.header.hash) bc
      have hround : sendRemoved pending (header :: blocks) () bc =
          ((sendRemoved left blocks () bc).1, first ++ (sendRemoved left blocks () bc).2) := by
        rw [sendRemoved, bind_of_ok (readBlock_some hblock _), collectLogs, read_bind,
          bind_of_ok hsent]
        rfl
      obtain ⟨events, ⟨hrest, hall⟩ | ⟨hrest, missing, hmem, hmissing⟩⟩ := ih left
      · refine ⟨first ++ events, .inl ⟨by rw [hround, hrest], fun hkeyed => ?_⟩⟩
        have hboth := honly.append (hall hkeyed)
        rw [← append_assoc, hsplit, hkeyed.hash_of_getBlock hblock] at hboth
        simpa using hboth
      · refine ⟨first ++ events, .inr ⟨by rw [hround, hrest], missing, ?_, hmissing⟩⟩
        exact mem_cons_of_mem header hmem

/-- The new blocks are written as `ChainDb.applyNew` does it, and their logs are sent.  A missing
    block stops the loop; the blocks before it have been written. -/
theorem applyNew_spec :
    ∀ (blocks : List Header) (bc : LiveChain) (txs : List Hash) (pending : List SentLog),
      ∃ bc' events,
        (∃ txs', applyNew txs pending blocks () bc = ((.ok txs', bc'), events) ∧
          bc.db.applyNew txs blocks = .ok (bc'.db, txs') ∧ bc'.receipts = bc.receipts ∧
          bc'.db.headers = bc.db.headers ∧ (bc.db.Keyed →
            Only .logsFeed (pending ++ blocks.flatMap fun h => bc.logsOf false h.hash) events)) ∨
        (applyNew txs pending blocks () bc =
          ((.error (.reorg .invalidNewChain), bc'), events) ∧ ∃ below missing above written,
          blocks = below ++ missing :: above ∧
          below.Forall₂ (fun h block => bc.db.getBlock h.hash h.number = some block) written ∧
          bc.db.getBlock missing.hash missing.number = none ∧
          bc' = written.foldl writeHeadBlock bc) := by
  intro blocks
  induction blocks with
  | nil =>
    intro bc txs pending
    obtain ⟨events, hflush, honly⟩ := flushLogs_eq .logsFeed pending bc
    refine ⟨bc, events, .inl ⟨txs, ?_, rfl, rfl, rfl, fun _ => by simpa using honly⟩⟩
    rw [applyNew, bind_of_ok hflush]
    exact Prod.ext rfl (append_nil events)
  | cons header blocks ih =>
    intro bc txs pending
    cases hblock : bc.db.getBlock header.hash header.number with
    | none =>
      refine ⟨bc, [], .inr ⟨bind_of_error (readBlock_none hblock _), ?_⟩⟩
      exact ⟨[], header, blocks, [], rfl, .nil, hblock, rfl⟩
    | some block =>
      obtain ⟨left, sent, first, hsent, honly, hsplit⟩ :=
        sendFull_eq .logsFeed (pending ++ bc.logsOf false block.header.hash) bc
      have hround : applyNew txs pending (header :: blocks) () bc =
          let rest := applyNew (txs ++ block.transactions) left blocks () (bc.writeHeadBlock block)
          (rest.1, first ++ rest.2) := by
        rw [applyNew, bind_of_ok (readBlock_some hblock _), collectLogs, read_bind,
          bind_of_ok hsent]
        rfl
      obtain ⟨bc', events, ⟨txs', hrest, hdb, hreceipts, hheaders, hall⟩ |
        ⟨hrest, below, missing, above, written, rfl, hwritten, hmissing, hbc⟩⟩ :=
        ih (bc.writeHeadBlock block) (txs ++ block.transactions) left
      · refine ⟨bc', first ++ events, .inl ⟨txs', by rw [hround, hrest], ?_, hreceipts, hheaders,
          fun hkeyed => ?_⟩⟩
        · simp only [ChainDb.applyNew, hblock]
          exact hdb
        · have hboth := honly.append (hall hkeyed)
          rw [← append_assoc, hsplit, hkeyed.hash_of_getBlock hblock] at hboth
          simpa using hboth
      · refine ⟨bc', first ++ events, .inr ⟨by rw [hround, hrest], ?_⟩⟩
        exact ⟨header :: below, missing, above, block :: written, rfl, .cons hblock hwritten,
          hmissing, hbc⟩

/-! ### Failed reorganisations -/

variable {db : ChainDb}

theorem collectDeleted_error :
    ∀ {blocks : List Header} {err : ReorgError}, db.collectDeleted blocks = .error err →
      err = .invalidOldChain ∧ ∃ h ∈ blocks, db.getBlock h.hash h.number = none := by
  intro blocks
  induction blocks with
  | nil => exact nofun
  | cons header blocks ih =>
    intro err h
    unfold collectDeleted at h
    split at h
    · rename_i hmissing
      cases h
      exact ⟨rfl, header, mem_cons_self, hmissing⟩
    cases hrest : db.collectDeleted blocks with
    | error err' =>
      rw [hrest] at h
      cases h
      obtain ⟨herr, missing, hmem, hmissing⟩ := ih hrest
      exact ⟨herr, missing, mem_cons_of_mem header hmem, hmissing⟩
    | ok txs =>
      rw [hrest] at h
      cases h

/-- What a failure half way leaves behind: a block of the old chain is missing and nothing was
    written, or a block of the new chain is and the ones below it were. -/
def Halted (oldChain newChain : List Header) (bc bc' : LiveChain) (e : ChainError) : Prop :=
  (e = .reorg .invalidOldChain ∧ bc' = bc ∧ ∃ h ∈ oldChain, bc.db.getBlock h.hash h.number = none) ∨
  (e = .reorg .invalidNewChain ∧ ∃ below missing above written,
    newChain.tail.reverse = below ++ missing :: above ∧
    below.Forall₂ (fun h block => bc.db.getBlock h.hash h.number = some block) written ∧
    bc.db.getBlock missing.hash missing.number = none ∧
    bc' = written.foldl writeHeadBlock bc)

theorem txLookupLock_writeHeadBlocks (blocks : List Block) (bc : LiveChain) :
    (blocks.foldl writeHeadBlock bc).txLookupLock = bc.txLookupLock := by
  induction blocks generalizing bc with
  | nil => rfl
  | cons block blocks ih => exact ih (bc.writeHeadBlock block)

theorem Halted.txLookupLock {oldChain newChain : List Header}
    (h : Halted oldChain newChain bc bc' e) : bc'.txLookupLock = bc.txLookupLock := by
  rcases h with ⟨-, rfl, -⟩ | ⟨-, below, missing, above, written, -, -, -, rfl⟩
  · rfl
  · exact txLookupLock_writeHeadBlocks written bc

/-- What was sent on each of the feeds. -/
structure Streamed (removed added : List SentLog) (chain : List ChainEvent) (events : List Sent) :
    Prop where
  removed : logsOn .rmLogsFeed events = removed
  added : logsOn .logsFeed events = added
  chain : chainEvents events = chain

theorem Streamed.append {removed removed' added added' : List SentLog}
    {chain chain' : List ChainEvent} {events' : List Sent} (h : Streamed removed added chain events)
    (h' : Streamed removed' added' chain' events') :
    Streamed (removed ++ removed') (added ++ added') (chain ++ chain') (events ++ events') where
  removed := by rw [logsOn_append, h.removed, h'.removed]
  added := by rw [logsOn_append, h.added, h'.added]
  chain := by rw [chainEvents_append, h.chain, h'.chain]

variable {logs : List SentLog}

theorem Only.removed (h : Only .rmLogsFeed logs events) : Streamed logs [] [] events :=
  ⟨h.on, h.off .logsFeed nofun, h.chain⟩

theorem Streamed.chainFeed (event : ChainEvent) : Streamed [] [] [event] [.chainFeed event] :=
  ⟨rfl, rfl, rfl⟩

theorem Only.added (h : Only .logsFeed logs events) : Streamed [] logs [] events :=
  ⟨h.off .rmLogsFeed nofun, h.on, h.chain⟩

variable {c oldHead newHead h p : Header}

/-- The exchange stops at a missing block, or does to the database what `ChainDb.reorg` does
    and sends the logs of both chains. -/
theorem exchange_spec (oldChain newChain : List Header) (c : Header) (bc : LiveChain) :
    ∃ bc' events,
      (∃ e, exchange oldChain newChain c () bc = ((.error e, bc'), events) ∧
        Halted oldChain newChain bc bc' e) ∨
      (exchange oldChain newChain c () bc = ((.ok (), bc'), events) ∧
        bc'.receipts = bc.receipts ∧ bc'.db.headers = bc.db.headers ∧
        (∀ oldHead newHead, bc.db.fork oldHead newHead = .ok (oldChain, newChain, c) →
          bc.db.reorg oldHead newHead = .ok bc'.db) ∧
        (bc.db.Keyed → Streamed (oldChain.reverse.flatMap fun h => bc.logsOf true h.hash)
          (newChain.tail.reverse.flatMap fun h => bc.logsOf false h.hash) [] events)) := by
  obtain ⟨events, ⟨hremoved, honly⟩ | ⟨hremoved, missing, hmem, hmissing⟩⟩ :=
    sendRemoved_spec bc oldChain.reverse []
  swap
  · exact ⟨bc, events, .inl ⟨_, bind_of_error hremoved, .inl ⟨rfl, rfl, missing,
      mem_reverse.mp hmem, hmissing⟩⟩⟩
  cases hdeleted : bc.db.collectDeleted oldChain with
  | error err =>
    obtain ⟨rfl, hmissing⟩ := collectDeleted_error hdeleted
    refine ⟨bc, events, .inl ⟨.reorg .invalidOldChain, ?_, .inl ⟨rfl, rfl, hmissing⟩⟩⟩
    rw [exchange, bind_of_ok hremoved, bind_of_error (query_error hdeleted), append_nil]
  | ok deletedTxs =>
    obtain ⟨bc', events', ⟨txs, happly, hdb, hreceipts, hheaders, honly'⟩ | ⟨happly, hstopped⟩⟩ :=
      applyNew_spec newChain.tail.reverse bc [] []
    · have hrun : exchange oldChain newChain c () bc = ((.ok (), { bc' with
          db := bc'.db.deleteIndexes (hashDifference deletedTxs txs)
            (lastWritten newChain c) }), events ++ events') := by
        rw [exchange, bind_of_ok hremoved, bind_of_ok (query_ok hdeleted), bind_of_ok happly]
        exact Prod.ext rfl (by simp [Traced.modify])
      refine ⟨_, _, .inr ⟨hrun, hreceipts, hheaders, fun oldHead newHead hfork => ?_, ?_⟩⟩
      · simp [ChainDb.reorg, hfork, hdeleted, hdb]
      · intro hkeyed
        simpa using (honly hkeyed).removed.append (honly' hkeyed).added
    · refine ⟨bc', events ++ events', .inl ⟨.reorg .invalidNewChain, ?_, .inr ⟨rfl, hstopped⟩⟩⟩
      rw [exchange, bind_of_ok hremoved, bind_of_ok (query_ok hdeleted), bind_of_error happly]
      rfl

theorem lock_free (h : bc.txLookupLock = false) : lock
    () bc = ((.ok (), bc.withLock true), []) := by
  simp [lock, h]

theorem lock_held (h : bc.txLookupLock = true) : lock () bc = ((.error .blocked, bc), []) := by
  simp [lock, h]

theorem reorg_of_fork {oldChain newChain : List Header}
    (hfork : bc.db.fork oldHead newHead = .ok (oldChain, newChain, c)) :
    reorg oldHead newHead () bc = (do lock; exchange oldChain newChain c; unlock : ChainM Unit)
      () bc := by
  rw [reorg, bind_of_ok (query_ok hfork)]
  rfl

/-- **A failed reorganisation.**  If the common block cannot be found, nothing happens.
    Otherwise the lock is taken and stays taken. -/
theorem reorg_failed (hfree : bc.txLookupLock = false)
    (h : reorg oldHead newHead () bc = ((.error e, bc'), events)) :
    (∃ err, bc.db.fork oldHead newHead = .error err ∧ e = .reorg err ∧ bc' = bc) ∨
    ∃ oldChain newChain c, bc.db.fork oldHead newHead = .ok (oldChain, newChain, c) ∧
      Halted oldChain newChain (bc.withLock true) bc' e := by
  cases hfork : bc.db.fork oldHead newHead with
  | error err =>
    rw [reorg, bind_of_error (query_error hfork)] at h
    cases h
    exact .inl ⟨err, rfl, rfl, rfl⟩
  | ok forked =>
    obtain ⟨oldChain, newChain, c⟩ := forked
    refine .inr ⟨oldChain, newChain, c, rfl, ?_⟩
    rw [reorg_of_fork hfork, bind_of_ok (lock_free hfree)] at h
    obtain ⟨bc₁, events₁, ⟨e₁, hexchange, hhalted⟩ | ⟨hexchange, -⟩⟩ :=
      exchange_spec oldChain newChain c (bc.withLock true)
    · rw [bind_of_error hexchange] at h
      cases h
      exact hhalted
    · rw [bind_of_ok hexchange] at h
      cases h

/-- The markers, lookup entries and heads are the same. -/
structure Unaffected (bc bc' : LiveChain) : Prop where
  canonicalHash : bc'.db.canonicalHash = bc.db.canonicalHash
  txLookup : bc'.db.txLookup = bc.db.txLookup
  headHeaderHash : bc'.db.headHeaderHash = bc.db.headHeaderHash
  headFastBlockHash : bc'.db.headFastBlockHash = bc.db.headFastBlockHash
  headBlockHash : bc'.db.headBlockHash = bc.db.headBlockHash
  currentBlock : bc'.db.currentBlock = bc.db.currentBlock
  currentHeader : bc'.currentHeader = bc.currentHeader

/-- A failed reorganisation has no effect exactly if it is a header that is missing
    (`fork_error_iff`), and not the body of a block. -/
theorem reorg_without_effect_iff {oldHead newHead : Header} (hfree : bc.txLookupLock = false)
    (h : reorg oldHead newHead () bc = ((.error e, bc'), events)) :
    (Unaffected bc bc' ∧ bc'.txLookupLock = false) ↔
      ∃ err, bc.db.fork oldHead newHead = .error err := by
  constructor
  · rintro ⟨-, hreleased⟩
    rcases reorg_failed hfree h with ⟨err, hfork, -, -⟩ | ⟨oldChain, newChain, c, -, hhalted⟩
    · exact ⟨err, hfork⟩
    · rw [hhalted.txLookupLock] at hreleased
      cases hreleased
  · rintro ⟨err, herr⟩
    rcases reorg_failed hfree h with ⟨-, -, -, rfl⟩ | ⟨oldChain, newChain, c, hfork, -⟩
    · exact ⟨⟨rfl, rfl, rfl, rfl, rfl, rfl, rfl⟩, hfree⟩
    · rw [hfork] at herr
      cases herr

/-- A chain just opened on a database, without receipts. -/
def ofDb (db : ChainDb) : LiveChain where
  db := db
  currentHeader := db.currentBlock
  currentSnapBlock := db.currentBlock
  receipts := ∅
  txLookupLock := false

/-- The side chain of `forked` goes on, but the body of its second block is lost. -/
def damaged : LiveChain :=
  ofDb { forked with
    headers := (forked.headers.insert 4 ⟨4, 3, 2, 0⟩).insert 5 ⟨5, 4, 3, 0⟩ }

/-- The first block of the side chain has become the head, and the lock is held. -/
theorem damaged_reorg_has_effect :
    (reorg ⟨2, 1, 1, 0⟩ ⟨5, 4, 3, 0⟩ () damaged).1.1 = .error (.reorg .invalidNewChain) ∧
    ¬Unaffected damaged (reorg ⟨2, 1, 1, 0⟩ ⟨5, 4, 3, 0⟩ () damaged).1.2 ∧
    (reorg ⟨2, 1, 1, 0⟩ ⟨5, 4, 3, 0⟩ () damaged).1.2.txLookupLock = true := by
  refine ⟨by decide +kernel, ?_, by decide +kernel⟩
  intro h
  exact absurd h.currentBlock (by decide +kernel)

/-- A head without its parent is refused before anything happens. -/
theorem damaged_reorg_without_effect :
    Unaffected damaged (reorg ⟨2, 1, 1, 0⟩ ⟨7, 6, 3, 0⟩ () damaged).1.2 ∧
      (reorg ⟨2, 1, 1, 0⟩ ⟨7, 6, 3, 0⟩ () damaged).1.2.txLookupLock = false := by
  have hfork : damaged.db.fork ⟨2, 1, 1, 0⟩ ⟨7, 6, 3, 0⟩ = .error .invalidNewChain := by
    decide +kernel
  have hfailed : (reorg ⟨2, 1, 1, 0⟩ ⟨7, 6, 3, 0⟩ () damaged).1.1 =
      .error (.reorg .invalidNewChain) := by decide +kernel
  exact (reorg_without_effect_iff rfl (Prod.ext (Prod.ext hfailed rfl) rfl)).mpr ⟨_, hfork⟩

/-! ### The events of a call -/

/-- A reorganisation that returns has done to the database what `ChainDb.reorg` does, has
    released the lock, and has sent the logs of both chains. -/
theorem reorg_returns (hkeyed : bc.db.Keyed)
    (h : reorg oldHead newHead () bc = ((.ok u, bc'), events)) :
    bc.db.reorg oldHead newHead = .ok bc'.db ∧ bc'.txLookupLock = false ∧
      bc'.receipts = bc.receipts ∧ bc'.db.headers = bc.db.headers ∧
      ∃ oldChain newChain c, bc.db.fork oldHead newHead = .ok (oldChain, newChain, c) ∧
        Streamed (oldChain.reverse.flatMap fun h => bc.logsOf true h.hash)
          (newChain.tail.reverse.flatMap fun h => bc.logsOf false h.hash) [] events := by
  cases hfork : bc.db.fork oldHead newHead with
  | error err =>
    rw [reorg, bind_of_error (query_error hfork)] at h
    cases h
  | ok forked =>
    obtain ⟨oldChain, newChain, c⟩ := forked
    rw [reorg_of_fork hfork] at h
    cases hfree : bc.txLookupLock with
    | true =>
      rw [bind_of_error (lock_held hfree)] at h
      cases h
    | false =>
      rw [bind_of_ok (lock_free hfree)] at h
      obtain ⟨bc₁, events₁, ⟨e, hexchange, -⟩ | ⟨hexchange, hreceipts, hheaders, hdb, hsent⟩⟩ :=
        exchange_spec oldChain newChain c (bc.withLock true)
      · rw [bind_of_error hexchange] at h
        cases h
      · rw [bind_of_ok hexchange] at h
        cases h
        refine ⟨hdb oldHead newHead hfork, rfl, hreceipts, hheaders, _, _, _, rfl, ?_⟩
        simpa [unlock, Traced.modify] using hsent hkeyed

/-- The calls that set the head. -/
inductive HeadCall where
  | writeBlockAndSetHead (receipts : List Receipt) (logs : List Log)
      (committed emitHeadEvent : Bool)
  | setCanonical (stopped recovered : Bool)

def HeadCall.run (head : Block) : HeadCall → ChainM Unit
  | writeBlockAndSetHead receipts logs committed emitHeadEvent =>
    LiveChain.writeBlockAndSetHead head receipts logs committed emitHeadEvent
  | setCanonical stopped recovered => LiveChain.setCanonical head stopped recovered

/-- The blocks between the old head and the new one, heads first, and the common block. -/
structure Exchanged (db : ChainDb) (oldHead newHead : Header) (dropped added : List Header)
    (c : Header) : Prop where
  oldWay : Way db.parent oldHead dropped c
  newWay : Way db.parent newHead added c
  disjoint : ∀ x ∈ dropped, x ∉ added

variable {block head : Block}

theorem writeKnownBlock_returns (hkeyed : bc.db.Keyed) (hcurrent : bc.db.Stored bc.db.currentBlock)
    (hhead : bc.db.Stored block.header)
    (hchild : block.header.parentHash = bc.db.currentBlock.hash →
      bc.db.parent block.header = some bc.db.currentBlock)
    (h : writeKnownBlock block () bc = ((.ok u, bc'), events)) :
    bc'.receipts = bc.receipts ∧ bc'.db.headers = bc.db.headers ∧
      ∃ dropped added c, Exchanged bc.db bc.db.currentBlock block.header dropped added c ∧
        Streamed (dropped.reverse.flatMap fun h => bc.logsOf true h.hash)
          (added.tail.reverse.flatMap fun h => bc.logsOf false h.hash) [] events := by
  rw [writeKnownBlock, read_bind] at h
  obtain ⟨_, bc₂, events₂, rest₂, hreorg, h₂, rfl⟩ := bind_ok_inv h
  cases h₂
  split at hreorg
  · obtain ⟨-, -, hreceipts, hheaders, oldChain, newChain, c, hfork, hstreamed⟩ :=
      reorg_returns hkeyed hreorg
    obtain ⟨hdropped, hadded, hdisjoint⟩ := way_of_fork hkeyed hcurrent hhead hfork
    refine ⟨hreceipts, hheaders, oldChain, newChain, c, ⟨hdropped, hadded, hdisjoint⟩, ?_⟩
    simpa using hstreamed
  · rename_i hsame
    cases hreorg
    refine ⟨rfl, rfl, [], [block.header], bc.db.currentBlock, ⟨Way.nil _, ?_, nofun⟩, rfl, rfl, rfl⟩
    exact Way.cons (hchild (not_ne_iff.mp hsame)) (Way.nil _)

theorem Exchanged.congr {db' : ChainDb} {dropped added : List Header}
    (h : Exchanged db oldHead newHead dropped added c) (hheaders : db'.headers = db.headers) :
    Exchanged db' oldHead newHead dropped added c := by
  have hparent := parent_congr hheaders
  constructor
  · rw [hparent]
    exact h.oldWay
  · rw [hparent]
    exact h.newWay
  · exact h.disjoint

/-- What a caller gives: the hash of a new block belongs to no other header and its logs are
    those of its receipts; a block that is made canonical is stored, and one that is a child of
    the current block has the next number. -/
def HeadCall.Proper (bc : LiveChain) (head : Block) : HeadCall → Prop
  | writeBlockAndSetHead receipts logs _ _ =>
    (∀ h, bc.db.headers.lookup head.header.hash = some h → h = head.header) ∧
      logs = receipts.flatMap (·.logs)
  | setCanonical _ _ =>
    bc.db.Stored head.header ∧ (head.header.parentHash = bc.db.currentBlock.hash →
      head.header.number = bc.db.currentBlock.number + 1)

/-- What a call has sent, for the events `chain` on `chainFeed`. -/
def Announced (bc bc' : LiveChain) (head : Block) (chain : List ChainEvent) (events : List Sent) :
    Prop :=
  ∃ dropped added c, Exchanged bc'.db bc.db.currentBlock head.header dropped added c ∧
    Streamed (dropped.reverse.flatMap fun h => bc'.logsOf true h.hash)
      ((added.tail.reverse.flatMap fun h => bc'.logsOf false h.hash) ++
        bc'.logsOf false head.header.hash) chain events

theorem writeBlockWithState_ok {committed : Bool}
    (h : writeBlockWithState block receipts committed () bc = ((.ok u, bc'), events)) :
    (∃ p, bc.db.parent block.header = some p) ∧ events = [] ∧
      bc' = { bc with
        db := bc.db.writeBlock block
        receipts := bc.receipts.insert block.header.hash receipts } := by
  obtain ⟨hparent, h⟩ := guard_ok_inv h
  split at h
  · cases h
    exact ⟨Option.ne_none_iff_exists'.mp hparent, rfl, rfl⟩
  · cases h

theorem parent_eq_of_stored {current : Header} (hp : db.parent h = some p)
    (hcurrent : db.Stored current) (hhash : h.parentHash = current.hash) : p = current := by
  have hnumber := number_parent hp
  rw [parent, if_neg (by omega), getHeader_eq_some, hhash] at hp
  exact Option.some.inj (hp.1.symm.trans hcurrent)

open Streamed

theorem writeBlockAndSetHead_sends {logs : List Log} {committed emitHeadEvent : Bool}
    (hkeyed : bc.db.Keyed) (hcurrent : bc.db.Stored bc.db.currentBlock)
    (hhash : ∀ h, bc.db.headers.lookup head.header.hash = some h → h = head.header)
    (hlogs : logs = receipts.flatMap (·.logs))
    (h : writeBlockAndSetHead head receipts logs committed emitHeadEvent () bc =
      ((.ok u, bc'), events)) :
    Announced bc bc' head [⟨head.header, [], []⟩, ⟨head.header, receipts, head.transactions⟩]
      events := by
  obtain ⟨_, bc₁, events₁, rest₁, hstate, h₁, rfl⟩ := bind_ok_inv h
  obtain ⟨⟨p, hp⟩, rfl, rfl⟩ := writeBlockWithState_ok hstate
  obtain ⟨_, bc₂, events₂, rest₂, hknown, h₂, rfl⟩ := bind_ok_inv h₁
  obtain ⟨events₃, hflush, honly⟩ := flushLogs_eq .logsFeed (logs.map (⟨·, false⟩)) bc₂
  obtain ⟨events₄, hend, hquiet⟩ : ∃ events, (if emitHeadEvent then
      send (.chainHeadFeed head.header) else (pure () : ChainM Unit)) () bc₂ =
        ((.ok (), bc₂), events) ∧ Streamed [] [] [] events := by
    split
    · exact ⟨_, rfl, rfl, rfl, rfl⟩
    · exact ⟨_, rfl, rfl, rfl, rfl⟩
  rw [send_bind, send_bind, bind_of_ok hflush, hend] at h₂
  cases h₂
  obtain ⟨hreceipts, hheaders, dropped, added, c, hexchanged, hstreamed⟩ :=
    writeKnownBlock_returns (keyed_writeBlock hkeyed head)
      (stored_writeBlock hhash hcurrent) (by exact Finmap.lookup_insert _)
      (fun hchild => by
        rw [parent_writeBlock_of_some hhash hp, parent_eq_of_stored hp hcurrent hchild]
        rfl) hknown
  have hhead : bc'.receiptsOf head.header.hash = receipts := by
    simp [receiptsOf, hreceipts]
  have hlogsOf : bc'.logsOf false head.header.hash = logs.map (⟨·, false⟩) := by
    rw [logsOf, hhead, hlogs, map_flatMap]
  refine ⟨dropped, added, c, hexchanged.congr hheaders, ?_⟩
  rw [hlogsOf, logsOf_congr hreceipts]
  have hsent := (chainFeed ⟨head.header, [], []⟩).append
    (chainFeed ⟨head.header, receipts, head.transactions⟩)
  have hall := hstreamed.append (hsent.append (honly.added.append hquiet))
  simpa using hall

theorem setCanonical_sends {stopped recovered : Bool} (hkeyed : bc.db.Keyed)
    (hcurrent : bc.db.Stored bc.db.currentBlock) (hhead : bc.db.Stored head.header)
    (hnumber : head.header.parentHash = bc.db.currentBlock.hash →
      head.header.number = bc.db.currentBlock.number + 1)
    (h : setCanonical head stopped recovered () bc = ((.ok u, bc'), events)) :
    Announced bc bc' head
      [⟨head.header, bc'.receiptsOf head.header.hash, head.transactions⟩] events := by
  obtain ⟨-, h⟩ := guard_ok_inv h
  rw [← ite_not] at h
  obtain ⟨-, h⟩ := guard_ok_inv h
  obtain ⟨_, bc₁, events₁, rest₁, hknown, h₁, rfl⟩ := bind_ok_inv h
  rw [read_bind, collectLogs, read_bind, send_bind] at h₁
  obtain ⟨events₂, hflush, honly⟩ :=
    flushLogs_eq .logsFeed (bc₁.logsOf false head.header.hash) bc₁
  rw [bind_of_ok hflush] at h₁
  cases h₁
  obtain ⟨hreceipts, hheaders, dropped, added, c, hexchanged, hstreamed⟩ :=
    writeKnownBlock_returns hkeyed hcurrent hhead
      (fun hchild => by
        have hnext := hnumber hchild
        rw [parent, if_neg (by omega), getHeader_eq_some, hchild]
        exact ⟨hcurrent, by omega⟩) hknown
  refine ⟨dropped, added, c, hexchanged.congr hheaders, ?_⟩
  have hquiet : Streamed [] [] [] (send (.chainHeadFeed head.header) () bc').2 := ⟨rfl, rfl, rfl⟩
  rw [← logsOf_congr hreceipts] at hstreamed
  have hsent :=
    chainFeed ⟨head.header, bc'.receiptsOf head.header.hash, head.transactions⟩
  have hall := hstreamed.append (hsent.append (honly.added.append hquiet))
  simpa using hall

/-- **The event stream.**  A call that sets the head and returns sends the logs of the dropped
    blocks as removed, lowest first, and the logs of the new blocks, the head's last.  On
    `chainFeed` only `SetCanonical` sends one event. -/
theorem event_stream {call : HeadCall} {head : Block} (hkeyed : bc.db.Keyed)
    (hcurrent : bc.db.Stored bc.db.currentBlock)
    (hcall : call.Proper bc head) (h : call.run head () bc = ((.ok u, bc'), events)) :
    ∃ chain, Announced bc bc' head chain events ∧
      (chain = [⟨head.header, bc'.receiptsOf head.header.hash, head.transactions⟩] ↔
        ∃ stopped recovered, call = .setCanonical stopped recovered) := by
  cases call with
  | writeBlockAndSetHead receipts logs committed emitHeadEvent =>
    refine ⟨_, writeBlockAndSetHead_sends hkeyed hcurrent hcall.1 hcall.2 h, ?_⟩
    constructor
    · intro hsingle
      exact absurd (congrArg length hsingle) (by simp)
    · rintro ⟨stopped, recovered, hcall⟩
      cases hcall
  | setCanonical stopped recovered =>
    refine ⟨_, setCanonical_sends hkeyed hcurrent hcall.1 hcall.2 h, ?_⟩
    exact ⟨fun _ => ⟨stopped, recovered, rfl⟩, fun _ => rfl⟩

def logOf (address : Address) : Log := { address, topics := [], data := [] }

/-- `forked` with a log in each of the two blocks. -/
def logged : LiveChain :=
  { ofDb forked with
    receipts := (Finmap.singleton 2 [{ logs := [logOf 7] }] : GoMap Hash (List Receipt)).insert 3
      [{ logs := [logOf 8] }] }

/-- The other block becomes the head: the log of the first is removed, its own is sent. -/
theorem setCanonical_logged_streams :
    ∃ bc' chain events,
      setCanonical ⟨⟨3, 1, 1, 0⟩, [11]⟩ false true () logged = ((.ok (), bc'), events) ∧
      Announced logged bc' ⟨⟨3, 1, 1, 0⟩, [11]⟩ chain events ∧
      chain = [⟨⟨3, 1, 1, 0⟩, [{ logs := [logOf 8] }], [11]⟩] ∧
      logsOn .rmLogsFeed events = [⟨logOf 7, true⟩] ∧
      logsOn .logsFeed events = [⟨logOf 8, false⟩] := by
  have hok : (setCanonical ⟨⟨3, 1, 1, 0⟩, [11]⟩ false true () logged).1.1 = .ok () := by
    decide +kernel
  have hrun : (HeadCall.setCanonical false true).run ⟨⟨3, 1, 1, 0⟩, [11]⟩ () logged =
      ((.ok (), (setCanonical ⟨⟨3, 1, 1, 0⟩, [11]⟩ false true () logged).1.2),
        (setCanonical ⟨⟨3, 1, 1, 0⟩, [11]⟩ false true () logged).2) :=
    Prod.ext (Prod.ext hok rfl) rfl
  have hlookup : forked.headers.lookup 3 = some ⟨3, 1, 1, 0⟩ := by decide
  have hother : (1 : Hash) ≠ 2 := by decide
  have hproper : (HeadCall.setCanonical false true).Proper logged
      ⟨⟨3, 1, 1, 0⟩, [11]⟩ := ⟨hlookup, fun h => absurd h hother⟩
  have hdb : logged.db.Consistent := run_forked.consistent
  obtain ⟨chain, hannounced, hiff⟩ := event_stream hdb.tree.keyed hdb.current hproper hrun
  refine ⟨_, chain, _, hrun, hannounced, ?_, by decide +kernel, by decide +kernel⟩
  rw [hiff.mpr ⟨false, true, rfl⟩]
  decide +kernel

/-- A block on top of the head is announced twice, the first time without its
    transaction. -/
theorem writeBlockAndSetHead_announces_twice :
    (writeBlockAndSetHead ⟨⟨4, 2, 2, 0⟩, [12]⟩ [] [] true true () (ofDb ChainDb.forked)).1.1 =
      .ok () ∧
    chainEvents (writeBlockAndSetHead ⟨⟨4, 2, 2, 0⟩, [12]⟩ [] [] true true ()
        (ofDb ChainDb.forked)).2 =
      [⟨⟨4, 2, 2, 0⟩, [], []⟩, ⟨⟨4, 2, 2, 0⟩, [], [12]⟩] := by
  decide +kernel

/-! ### Setting the head of a consistent chain -/

/-- Where no body is missing, a reorganisation does not stop half way. -/
theorem not_halted {oldChain newChain : List Header} (htree : bc.db.Tree)
    (hold : ∀ h ∈ oldChain, bc.db.Stored h) (hnew : ∀ h ∈ newChain.tail, bc.db.Stored h) :
    ¬Halted oldChain newChain bc bc' e := by
  rintro (⟨-, -, h, hh, hmissing⟩ | ⟨-, below, missing, above, written, hsplit, -, hmissing, -⟩)
  · rw [htree.getBlock_eq (hold h hh)] at hmissing
    cases hmissing
  · have hmem : missing ∈ newChain.tail.reverse := by simp [hsplit]
    rw [htree.getBlock_eq (hnew missing (mem_reverse.mp hmem))] at hmissing
    cases hmissing

/-- On a consistent chain whose lock is free, `reorg` returns. -/
theorem reorg_of_consistent (hdb : bc.db.Consistent) (hfree : bc.txLookupLock = false)
    (hnew : bc.db.Stored newHead) :
    ∃ bc' events, reorg bc.db.currentBlock newHead () bc = ((.ok (), bc'), events) := by
  obtain ⟨g, hg⟩ := hdb.root
  have htree := hdb.tree
  obtain ⟨⟨oldChain, newChain, c⟩, hfork⟩ := fork_ok (hg _ hdb.current) (hg _ hnew)
  obtain ⟨hoWay, hnWay, -⟩ := way_of_fork htree.keyed hdb.current hnew hfork
  rcases hreorg : reorg bc.db.currentBlock newHead () bc with ⟨⟨e | u, bc'⟩, events⟩
  · rcases reorg_failed hfree hreorg with
      ⟨err, herr, -, -⟩ | ⟨oldChain', newChain', c', hfork', hhalted⟩
    · rw [hfork] at herr
      cases herr
    · rw [hfork] at hfork'
      cases hfork'
      refine absurd hhalted (not_halted htree ?_ ?_)
      · exact fun h hh => htree.stored_via hdb.current (hoWay.of_mem hh).1
      · exact fun h hh => htree.stored_via hnew (mem_tail hnWay hh).1
  · exact ⟨bc', events, rfl⟩

/-- On a consistent chain `writeKnownBlock` does to the database what `ChainDb.writeKnownBlock`
    does. -/
theorem writeKnownBlock_of_consistent (hdb : bc.db.Consistent) (hfree : bc.txLookupLock = false)
    (hhead : bc.db.Stored head.header) :
    ∃ bc' events, writeKnownBlock head () bc = ((.ok (), bc'), events) ∧
      bc.db.writeKnownBlock head = .ok bc'.db ∧ bc'.txLookupLock = false := by
  unfold ChainDb.writeKnownBlock
  rw [writeKnownBlock, read_bind]
  split
  · obtain ⟨bc₁, events, hreorg⟩ := reorg_of_consistent hdb hfree hhead
    obtain ⟨hreorg', hreleased, -⟩ := reorg_returns hdb.tree.keyed hreorg
    refine ⟨bc₁.writeHeadBlock head, events ++ [], ?_, ?_, hreleased⟩
    · rw [bind_of_ok hreorg]
      rfl
    · rw [hreorg']
      rfl
  · exact ⟨bc.writeHeadBlock head, [], rfl, rfl, hfree⟩

/-- **The head of a run can be set to any stored block.**  Along every run of insertions and
    changes of the head, on a chain that is not stopped and whose lock is free, `SetCanonical`
    of a stored block whose state is there returns.  Afterwards the block is the head, the
    canonical markers are those of its ancestors and no others, and the next call can follow. -/
theorem setCanonical_of_run {bc : LiveChain} (run : ChainDb.Run bc.db)
    (hfree : bc.txLookupLock = false) {head : Block}
    (hstored : bc.db.getBlock head.header.hash head.header.number = some head) :
    ∃ bc' events, setCanonical head false true () bc = ((.ok (), bc'), events) ∧
      ChainDb.Run bc'.db ∧ bc'.txLookupLock = false ∧ bc'.db.currentBlock = head.header ∧
      (∀ n ≤ head.header.number, ∃ a, Via bc'.db.parent head.header a ∧ a.number = n ∧
        bc'.db.canonicalHash.lookup n = some a.hash) ∧
      ∀ n, head.header.number < n → bc'.db.canonicalHash.lookup n = none := by
  have hdb := run.consistent
  obtain ⟨bc', events, hknown, hwritten, hreleased⟩ :=
    writeKnownBlock_of_consistent hdb hfree (stored_of_getBlock hstored)
  obtain ⟨db', hwritten', hdb', hcurrent⟩ := hdb.writeKnownBlock hstored
  obtain rfl : bc'.db = db' := Except.ok.inj (hwritten.symm.trans hwritten')
  have hhead := hdb'.current
  have hindex := hdb'.indexed
  rw [hcurrent] at hhead hindex
  obtain ⟨events', hflush, -⟩ := flushLogs_eq .logsFeed (bc'.logsOf false head.header.hash) bc'
  have hset : (setCanonical head false true () bc).1 = (.ok (), bc') := by
    refine (congrArg Prod.fst (bind_of_ok hknown)).trans ?_
    rw [read_bind, collectLogs, read_bind, send_bind, bind_of_ok hflush]
    rfl
  refine ⟨bc', _, Prod.ext hset rfl, .writeKnownBlock run hstored hwritten, hreleased, hcurrent,
    ?_, ?_⟩
  · intro n hn
    obtain ⟨a, ha, rfl⟩ := hdb'.tree.exists_via_number hhead hn
    exact ⟨a, ha, rfl, hindex.marker ha⟩
  · exact fun n hn => hindex.above hn

theorem setCanonical_of_run_forked :
    ∃ bc' events, setCanonical ⟨⟨3, 1, 1, 0⟩, [11]⟩ false true () (ofDb forked) =
        ((.ok (), bc'), events) ∧ bc'.db.currentBlock = ⟨3, 1, 1, 0⟩ ∧
      (∃ a, Via bc'.db.parent ⟨3, 1, 1, 0⟩ a ∧ a.number = 0 ∧
        bc'.db.canonicalHash.lookup 0 = some a.hash) ∧
      bc'.db.canonicalHash.lookup 2 = none := by
  obtain ⟨bc', events, hset, -, -, hcurrent, hmarked, habove⟩ :=
    @setCanonical_of_run (ofDb forked) run_forked rfl ⟨⟨3, 1, 1, 0⟩, [11]⟩ (by decide)
  exact ⟨bc', events, hset, hcurrent, hmarked 0 (by decide), habove 2 (by decide)⟩

end LiveChain

end GethArb.Chain
