/-
  **The logs of a transaction in a `StateDB`.**

  `AddLog` files a log under the hash of the current transaction and stamps it with the
  transaction's index and a counter that runs through the block.  A revert takes logs and
  counter back together.  `Numbered` is the invariant: the logs of the current transaction
  carry its hash and index and are counted on from where the transaction began, and the
  journal holds entries of its own logs only.  Every operation of a message keeps it
  (`Numbered.step`), so every run of them does (`Numbered.run`).
-/
import GethArb.StateInv

namespace GethArb

open List BitVec

variable {e : JournalEntry}

namespace StateDB

variable [Crypto]

/-! ### Operations that leave the logs alone -/

/-- Logs, their counter and the transaction are the same, and no entry about a log is new. -/
structure Quiet (s t : StateDB) : Prop where
  thash : t.thash = s.thash
  txIndex : t.txIndex = s.txIndex
  logs : t.logs = s.logs
  logSize : t.logSize = s.logSize
  entries : ∀ h, .addLogChange h ∈ t.journal.entries → .addLogChange h ∈ s.journal.entries

variable {s t : StateDB}

section
omit [Crypto]

theorem Quiet.of_same (hthash : t.thash = s.thash := by rfl)
    (htxIndex : t.txIndex = s.txIndex := by rfl) (hlogs : t.logs = s.logs := by rfl)
    (hlogSize : t.logSize = s.logSize := by rfl)
    (hentries : t.journal.entries = s.journal.entries := by rfl) : Quiet s t :=
  ⟨hthash, htxIndex, hlogs, hlogSize, fun _ hx => hentries ▸ hx⟩

theorem Quiet.refl (s : StateDB) : Quiet s s := .of_same

theorem Quiet.trans {r : StateDB} (h : Quiet s t) (h' : Quiet t r) : Quiet s r :=
  ⟨h'.thash.trans h.thash, h'.txIndex.trans h.txIndex, h'.logs.trans h.logs,
    h'.logSize.trans h.logSize, fun x hx => h.entries x (h'.entries x hx)⟩

theorem entries_append (j : Journal) (e : JournalEntry) : (j.append e).entries = j.entries ++
    [e] := by
  unfold Journal.append
  split
  · rfl
  · rfl

variable (h : Quiet s t)
include h

theorem Quiet.append (he : e.isLog = false) : Quiet s (t.append e) := by
  refine h.trans ⟨rfl, rfl, rfl, rfl, ?_⟩
  intro x hx
  rw [StateDB.append, entries_append, List.mem_append, List.mem_singleton] at hx
  rcases hx with hx | rfl
  · exact hx
  · cases he

theorem Quiet.touch (addr : Address) : Quiet s (t.touch addr) := by
  have happend : Quiet t (t.append (.touchChange addr)) :=
    (Quiet.refl t).append rfl
  refine h.trans ⟨rfl, rfl, rfl, rfl, ?_⟩
  intro x hx
  apply happend.entries x
  unfold StateDB.touch Journal.touchChange at hx
  split at hx
  · exact hx
  · exact hx

end

omit [Crypto] in
theorem keeps_quiet (s : StateDB) : Keeps (Quiet s) where
  frame h hjournal _ hthash htxIndex hlogs hlogSize :=
    h.trans (.of_same hthash htxIndex hlogs hlogSize (by rw [hjournal]))
  append h he := h.append he
  touch h addr := h.touch addr
  access h _ := h.trans .of_same

omit [Crypto] in
/-- The operations inside a message: all but those of the block. -/
def InMessage : Op → Prop
  | .setTxContext _ _ | .finalise _ _ | .intermediateRoot _ _ | .stateDiff _ _
  | .commit _ _ _ _ _ =>
    False
  | _ => True

/-- What an operation of a message does to the logs. -/
inductive LogEffect (s t : StateDB) : Prop where
  | tx (h : Tx s t)
  | quiet (h : Quiet s t)
  | annotate (hash : Hash) (blockNumber : U64) (blockHash : Hash) (blockTime : U64)
      (h : t = (s.getLogs hash blockNumber blockHash blockTime).2)
  | revert (revid : Nat) (h : s.revertToSnapshot revid = some t)

theorem logEffect_of_step {op : Op} (hop : InMessage op) (h : step op s = some t) :
    LogEffect s t := by
  by_cases htx : s.InTx op
  · exact .tx (tx_of_step htx h)
  have hs := Quiet.refl s
  have hP := keeps_quiet s
  cases op with
  | getLogs hash blockNumber blockHash blockTime =>
    cases h
    exact .annotate hash blockNumber blockHash blockTime rfl
  | setCode addr code =>
    cases h
    exact .quiet (hP.setCode hs addr code)
  | setStorage ord addr storage =>
    cases h
    exact .quiet (hP.setStorage hs ord addr storage)
  | createAccount addr =>
    cases h
    exact .quiet (hP.change hs rfl _ _)
  | createContract addr => exact .tx (tx_createContract h)
  | recordCacheWasm moduleHash version tag debug =>
    cases h
    exact .quiet (hs.append (e := .cacheWasm moduleHash version tag debug) rfl)
  | recordEvictWasm moduleHash version tag debug =>
    cases h
    exact .quiet (hs.append (e := .evictWasm moduleHash version tag debug) rfl)
  | snapshot =>
    cases h
    exact .quiet .of_same
  | revertToSnapshot revid => exact .revert revid h
  | prepare => exact .quiet (hP.prepare hs h)
  | filterTx on =>
    cases h
    exact .quiet .of_same
  | setTxContext | finalise | intermediateRoot | stateDiff | commit => exact hop.elim
  | _ => exact absurd trivial htx

/-! ### The invariant -/

omit [Crypto] in
/-- The logs of the transaction `h` with index `i`, counted from `n`. -/
def Follows (h : Hash) (i n : U64) (logs : List Log) : Prop :=
  ∀ k log, logs[k]? = some log →
    log.txHash = h ∧ log.txIndex = i ∧ log.index = n + BitVec.ofNat 64 k

section
omit [Crypto]
variable {h : Hash} {i n : U64} {logs : List Log}

theorem Follows.nil : Follows h i n [] := by
  intro k log hk
  cases hk

theorem Follows.concat (hlogs : Follows h i n logs) {log : Log} (hhash : log.txHash = h)
    (hindex : log.txIndex = i) (hnum : log.index = n + BitVec.ofNat 64 logs.length) :
    Follows h i n (logs ++ [log]) := by
  intro k log' hk
  rcases Nat.lt_or_ge k logs.length with hlt | hge
  · rw [getElem?_append_left hlt] at hk
    exact hlogs k log' hk
  rw [getElem?_append_right hge] at hk
  obtain ⟨hzero, rfl⟩ := List.getElem?_eq_some_iff.mp hk
  rw [length_singleton] at hzero
  have hk' : k = logs.length := by omega
  subst hk'
  simp only [Nat.sub_self]
  exact ⟨hhash, hindex, hnum⟩

theorem Follows.dropLast (hlogs : Follows h i n logs) : Follows h i n logs.dropLast := by
  intro k log hk
  rw [getElem?_dropLast] at hk
  split at hk
  · exact hlogs k log hk
  · cases hk

theorem Follows.map (hlogs : Follows h i n logs) {f : Log → Log}
    (hf : ∀ log, (f log).txHash = log.txHash ∧ (f log).txIndex = log.txIndex ∧
      (f log).index = log.index) : Follows h i n (logs.map f) := by
  intro k log hk
  rw [getElem?_map] at hk
  obtain ⟨log', hlog, rfl⟩ := Option.map_eq_some_iff.mp hk
  obtain ⟨hhash, hindex, hnum⟩ := hlogs k log' hlog
  obtain ⟨h₁, h₂, h₃⟩ := hf log'
  exact ⟨h₁.trans hhash, h₂.trans hindex, h₃.trans hnum⟩

end

omit [Crypto] in
/-- The state inside transaction `h` of index `i`, with `n` logs before it in the block and
    those of earlier transactions filed under `seen`. -/
structure Numbered (seen : Set Hash) (h : Hash) (i n : U64) (s : StateDB) : Prop where
  thash : s.thash = h
  txIndex : s.txIndex = i
  follows : Follows h i n (s.logs.get h)
  logSize : s.logSize = n + BitVec.ofNat 64 (s.logs.get h).length
  others : ∀ x, s.logs.get x ≠ [] → x = h ∨ x ∈ seen
  own : ∀ x, .addLogChange x ∈ s.journal.entries → x = h

section
variable {seen : Set Hash} {h : Hash} {i n : U64} {s t : StateDB}

section
omit [Crypto]

variable (hs : Numbered seen h i n s)
include hs

theorem Numbered.quiet (hq : Quiet s t) : Numbered seen h i n t where
  thash := hq.thash.trans hs.thash
  txIndex := hq.txIndex.trans hs.txIndex
  follows := by
    rw [hq.logs]
    exact hs.follows
  logSize := by
    rw [hq.logs, hq.logSize]
    exact hs.logSize
  others := by
    rw [hq.logs]
    exact hs.others
  own x hx := hs.own x (hq.entries x hx)

theorem Numbered.addLog (log : Log) : Numbered seen h i n (s.addLog log) := by
  have hget : ∀ x, (s.addLog log).logs.get x = if x = h then s.logs.get h ++
      [{ log with txHash := h, txIndex := i, index := s.logSize }] else s.logs.get x := by
    intro x
    simp [StateDB.addLog, StateDB.append, GoMap.get_insert, hs.thash, hs.txIndex]
  refine ⟨hs.thash, hs.txIndex, ?_, ?_, ?_, ?_⟩
  · rw [hget, if_pos rfl]
    exact hs.follows.concat rfl rfl hs.logSize
  · rw [hget, if_pos rfl, length_append]
    change s.logSize + 1 = _
    rw [hs.logSize, ofNat_add, add_assoc]
    rfl
  · intro x hx
    by_cases hxh : x = h
    · exact .inl hxh
    · rw [hget, if_neg hxh] at hx
      exact hs.others x hx
  · intro x hx
    change _ ∈ (s.journal.append (.addLogChange s.thash)).entries at hx
    rw [entries_append, mem_append, mem_singleton] at hx
    rcases hx with hx | hx
    · exact hs.own x hx
    · cases hx
      exact hs.thash

theorem Numbered.getLogs (hash : Hash) (blockNumber : U64) (blockHash : Hash) (blockTime : U64) :
    Numbered seen h i n (s.getLogs hash blockNumber blockHash blockTime).2 := by
  unfold StateDB.getLogs
  split
  · exact hs
  rename_i logs hlookup
  set annotate : Log → Log := fun l =>
    { l with blockNumber := blockNumber, blockHash := blockHash, blockTimestamp := blockTime }
  have hlogs : s.logs.get hash = logs := by
    rw [GoMap.get, hlookup]
    rfl
  have hget : ∀ x, GoMap.get (s.logs.insert hash (logs.map annotate)) x =
      if x = hash then (s.logs.get x).map annotate else s.logs.get x := by
    intro x
    rw [GoMap.get_insert]
    split_ifs with hx
    · rw [hx, hlogs]
    · rfl
  refine ⟨hs.thash, hs.txIndex, ?_, ?_, ?_, hs.own⟩
  · rw [hget]
    split
    · exact hs.follows.map fun _ => ⟨rfl, rfl, rfl⟩
    · exact hs.follows
  · rw [hget]
    split <;> simp only [length_map, hs.logSize]
  · intro x hx
    rw [hget] at hx
    split at hx
    · exact hs.others x (by simpa using hx)
    · exact hs.others x hx

/-- What `GetLogs` answers in the middle of the transaction. -/
theorem Numbered.follows_getLogs (blockNumber : U64) (blockHash : Hash) (blockTime : U64) :
    Follows h i n (s.getLogs h blockNumber blockHash blockTime).1 ∧
      (s.getLogs h blockNumber blockHash blockTime).1.length = (s.logs.get h).length := by
  unfold StateDB.getLogs
  split
  · rename_i hlookup
    have hlogs : s.logs.get h = [] := by
      rw [GoMap.get, hlookup]
      rfl
    exact ⟨Follows.nil, by rw [hlogs]⟩
  · rename_i logs hlookup
    have hlogs : s.logs.get h = logs := by
      rw [GoMap.get, hlookup]
      rfl
    rw [hlogs]
    exact ⟨(hlogs ▸ hs.follows).map fun _ => ⟨rfl, rfl, rfl⟩, length_map _⟩

end

/-- One log fewer, at the end of the transaction's own. -/
theorem Numbered.popLog (hs : Numbered seen h i n s)
    (hu : s.revertEntry (.addLogChange h) = some t) : Numbered seen h i n t := by
  have hpop : s.logs.get h ≠ [] ∧ t.thash = s.thash ∧ t.txIndex = s.txIndex ∧
      t.logSize = s.logSize - 1 ∧ t.journal = s.journal ∧
      ∀ x, t.logs.get x = if x = h then (s.logs.get h).dropLast else s.logs.get x := by
    simp only [revertEntry] at hu
    split at hu
    · rename_i hone
      cases hu
      obtain ⟨log, hlog⟩ := length_eq_one_iff.mp hone
      refine ⟨by rw [hlog]; exact cons_ne_nil _ _, rfl, rfl, rfl, rfl, ?_⟩
      intro x
      rw [GoMap.get_erase, hlog]
      rfl
    · split at hu
      · cases hu
      rename_i hnil
      cases hu
      refine ⟨fun hempty => hnil (by rw [hempty]; rfl), rfl, rfl, rfl, rfl, ?_⟩
      intro x
      rw [GoMap.get_insert]
  obtain ⟨hne, hthash, htxIndex, hlogSize, hjournal, hget⟩ := hpop
  refine ⟨hthash.trans hs.thash, htxIndex.trans hs.txIndex, ?_, ?_, ?_, ?_⟩
  · rw [hget, if_pos rfl]
    exact hs.follows.dropLast
  · have hlength : (s.logs.get h).length = (s.logs.get h).length - 1 + 1 := by
      have := length_pos_iff.mpr hne
      omega
    rw [hget, if_pos rfl, hlogSize, hs.logSize, length_dropLast]
    nth_rewrite 1 [hlength]
    rw [ofNat_add, ← add_assoc]
    exact add_sub_cancel _ _
  · intro x hx
    by_cases hxh : x = h
    · exact .inl hxh
    · rw [hget, if_neg hxh] at hx
      exact hs.others x hx
  · rw [hjournal]
    exact hs.own

omit [Crypto] in
theorem Undone.quiet (h : Undone e s t) (he : e.isLog = false) : Quiet s t := by
  obtain ⟨hlogs, hlogSize⟩ := h.logs he
  exact .of_same h.thash h.txIndex hlogs hlogSize (by rw [h.journal])

variable (hs : Numbered seen h i n s)
include hs

theorem Numbered.undoEntry (he : ∀ x, e = .addLogChange x → x = h)
    (hu : undoEntry e s = some t) : Numbered seen h i n t := by
  obtain ⟨r, hr, rfl⟩ := Option.map_eq_some_iff.mp hu
  have hrevert : Numbered seen h i n r := by
    rcases hlog : e.isLog with _ | _
    · exact hs.quiet ((revertEntry_undone hr).quiet hlog)
    cases e with
    | addLogChange x =>
      obtain rfl := he x rfl
      exact hs.popLog hr
    | _ => cases hlog
  refine hrevert.quiet ⟨rfl, rfl, rfl, rfl, ?_⟩
  intro x hx
  rw [(dropDirty_frame r.journal e).2.2] at hx
  exact hx

theorem Numbered.undoAll {es : List JournalEntry} (hes : ∀ x, .addLogChange x ∈ es → x = h)
    (hu : GethArb.undoAll StateDB.undoEntry es s = some t) : Numbered seen h i n t := by
  induction es generalizing t with
  | nil =>
    cases hu
    exact hs
  | cons e es ih =>
    obtain ⟨r, hr, hu⟩ := Option.bind_eq_some_iff.mp hu
    have hrest := ih (fun x hx => hes x (mem_cons_of_mem e hx)) hr
    apply hrest.undoEntry _ hu
    rintro x rfl
    exact hes x mem_cons_self

theorem Numbered.revertToSnapshot {revid : Nat} (hu : s.revertToSnapshot revid = some t) :
    Numbered seen h i n t := by
  obtain ⟨idx, r, q, -, -, hq, rfl⟩ := revertToSnapshot_some hu
  have hstart : Numbered seen h i n { s with unexpectedBalanceDelta := r.unexpectedBalanceDelta } :=
    hs.quiet .of_same
  have hundone : Numbered seen h i n q :=
    hstart.undoAll (fun x hx => hs.own x (List.mem_of_mem_drop hx)) hq
  exact { hundone with own := fun x hx => hs.own x (mem_of_mem_take hx) }

theorem Numbered.tx (htx : Tx s t) : Numbered seen h i n t := by
  induction htx with
  | refl => exact hs
  | tail _ hlast ih =>
    rcases (keeps_quiet _).logged (.refl _) hlast with hquiet | ⟨log, rfl⟩
    · exact ih.quiet hquiet
    · exact ih.addLog log

/-- **Every operation of a message keeps the numbering.** -/
theorem Numbered.step {op : Op} (hop : InMessage op) (hstep : step op s = some t) :
    Numbered seen h i n t := by
  rcases logEffect_of_step hop hstep with htx | hquiet | ⟨hash, number, blockHash, time, rfl⟩ |
    ⟨revid, hrevert⟩
  · exact hs.tx htx
  · exact hs.quiet hquiet
  · exact hs.getLogs hash number blockHash time
  · exact hs.revertToSnapshot hrevert

omit hs

/-- The operations of a message, one after the other. -/
def Moves (s t : StateDB) : Prop := ∃ ops, Run (fun _ op => InMessage op) s ops t

theorem Moves.refl (s : StateDB) : Moves s s := ⟨[], .nil s⟩

theorem Moves.step (op : Op) (hop : InMessage op) (hstep : step op s = some t) : Moves s t :=
  ⟨[op], .cons hop hstep (.nil t)⟩

theorem Moves.trans {r : StateDB} (h : Moves s t) (h' : Moves t r) : Moves s r := by
  obtain ⟨ops, hrun⟩ := h
  obtain ⟨ops', hrun'⟩ := h'
  refine ⟨ops ++ ops', ?_⟩
  induction hrun with
  | nil => exact hrun'
  | cons hop hstep _ ih => exact .cons hop hstep (ih hrun')

theorem Numbered.run (hs : Numbered seen h i n s) (hrun : Moves s t) : Numbered seen h i n t := by
  obtain ⟨ops, hrun⟩ := hrun
  exact hrun.invariant (fun _ _ _ hinv hop hstep => hinv.step hop hstep) hs

/-! ### Between transactions -/

/-- `Finalise` ends a transaction: the logs stay and the journal is empty. -/
theorem Numbered.finalise (hs : Numbered seen h i n s) (ord : MapOrders) (del : Bool) :
    Numbered seen h i n (s.finalise ord del) ∧ (s.finalise ord del).journal.entries = [] := by
  obtain ⟨r, hr, heq⟩ := s.finalise_sameTx ord del
  have hempty : (s.finalise ord del).journal.entries = [] := by
    rw [heq]
    rfl
  refine ⟨hs.quiet ?_, hempty⟩
  rw [heq]
  exact ⟨hr.thash, hr.txIndex, hr.logs, hr.logSize, nofun⟩

section
omit [Crypto]

theorem Numbered.sameTx (hs : Numbered seen h i n s) (hsame : SameTx s t) : Numbered seen h i n t :=
  hs.quiet (.of_same hsame.thash hsame.txIndex hsame.logs hsame.logSize (by rw [hsame.journal]))

/-- The state between two transactions, with `n` logs of the transactions `seen`. -/
structure Between (seen : Set Hash) (n : U64) (s : StateDB) : Prop where
  logSize : s.logSize = n
  only : ∀ x, s.logs.get x ≠ [] → x ∈ seen
  noEntries : ∀ x, .addLogChange x ∉ s.journal.entries

/-- A transaction begins, of a hash that has no logs. -/
theorem Between.setTxContext (hs : Between seen n s) (hnil : s.logs.get h = []) :
    Numbered seen h i n (s.setTxContext h i) := by
  refine ⟨rfl, rfl, ?_, ?_, ?_, ?_⟩
  · change Follows _ _ _ (s.logs.get h)
    rw [hnil]
    exact Follows.nil
  · change s.logSize = _ + BitVec.ofNat 64 (s.logs.get h).length
    rw [hnil, hs.logSize]
    exact (add_zero _).symm
  · intro x hx
    exact .inr (hs.only x hx)
  · intro x hx
    exact absurd hx (hs.noEntries x)

/-- A transaction has ended. -/
theorem Numbered.between (hs : Numbered seen h i n s) (hempty : s.journal.entries = []) :
    Between (insert h seen) (n + BitVec.ofNat 64 (s.logs.get h).length) s where
  logSize := hs.logSize
  only x hx := hs.others x hx
  noEntries x hx := by
    rw [hempty] at hx
    cases hx

end

end

end StateDB

end GethArb
