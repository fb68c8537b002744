/-
  **Reverting `SetCode`.**  `stateObject.SetCode` journals the cached code of the
  object.  The cache is filled on first use, so for an account whose code is in
  the database but was not read yet (a *cold* account) the journalled code is
  empty, and the undo, which recomputes the code hash from it, leaves the
  account without code.

  `revertToSnapshot_restores_code_iff` is the exact condition: a sequence of code
  operations is reverted correctly if and only if none of its `SetCode` calls is
  made on a cold account.

  Every entry of such a sequence sets the code to a fixed value when undone, so
  only the oldest one matters: `lead` is the code a log leads back to.
-/
import GethArb.StateInv

namespace GethArb.StateDB

open List

variable [Crypto]

/-! ### The code of an account -/

/-- The code and the code hash the getters return for an object. -/
def codeOf (s : StateDB) (addr : Address) (obj : StateObject) : Bytes × Hash :=
  ((obj.getCode s.reader addr).1, obj.data.codeHash)

/-- The account has code, and the object has not loaded it. -/
def Cold (s : StateDB) (addr : Address) : Prop :=
  ∃ obj, s.peek addr = some obj ∧ obj.code = [] ∧ obj.data.codeHash ≠ emptyCodeHash

/-- An existing account whose code lives in the database.  The object may have
    loaded it or not. -/
structure StoredCode (s : StateDB) (addr : Address) (code : Bytes) : Prop where
  read : s.reader.code addr (keccak256 code) = .ok code
  size : s.reader.codeSize addr (keccak256 code) = .ok code.length
  account : ∃ obj, s.peek addr = some obj ∧ obj.data.codeHash = keccak256 code ∧
    (obj.code = [] ∨ obj.code = code)

/-- The cached code of an object is the preimage of its code hash; an object
    without cached code has no code, or the one stored in the database. -/
structure CodeCache (code : Bytes) (obj : StateObject) : Prop where
  cached : obj.code ≠ [] → keccak256 obj.code = obj.data.codeHash
  uncached : obj.code = [] → obj.data.codeHash = emptyCodeHash ∨ obj.data.codeHash = keccak256 code

theorem CodeCache.setCode (stored code : Bytes) (obj : StateObject) :
    CodeCache stored (obj.setCode (keccak256 code) code) where
  cached _ := rfl
  uncached h := .inl (congrArg keccak256 h)

theorem codeOf_setCode (s : StateDB) (addr : Address) (obj : StateObject) (code : Bytes) :
    s.codeOf addr (obj.setCode (keccak256 code) code) = (code, keccak256 code) := by
  by_cases h : code = []
  · subst h
    simp [codeOf, StateObject.getCode, StateObject.setCode, emptyCodeHash]
  · simp [codeOf, StateObject.getCode, StateObject.setCode, h]

variable {s t u : StateDB} {addr : Address} {code stored : Bytes} {obj : StateObject}

/-- Loading the code keeps code and hash, and the cache is right afterwards. -/
theorem codeCache_getCode (hread : s.reader.code addr (keccak256 code) = .ok code)
    (h : CodeCache code obj) :
    CodeCache code (obj.getCode s.reader addr).2.1 ∧
      s.codeOf addr (obj.getCode s.reader addr).2.1 = s.codeOf addr obj ∧
      ((obj.getCode s.reader addr).2.1.code = [] →
        (obj.getCode s.reader addr).2.1.data.codeHash = emptyCodeHash) := by
  by_cases hcode : obj.code = []
  · by_cases hempty : obj.data.codeHash = emptyCodeHash
    · have heq : obj.getCode s.reader addr = ([], obj, none) := by
        simp [StateObject.getCode, hcode, hempty]
      rw [heq]
      exact ⟨h, rfl, fun _ => hempty⟩
    -- a cold object: the reader has the code
    have hhash : obj.data.codeHash = keccak256 code := (h.uncached hcode).resolve_left hempty
    have hne : code ≠ [] := by
      rintro rfl
      exact hempty hhash
    obtain ⟨b, bs, rfl⟩ := exists_cons_of_ne_nil hne
    have heq : obj.getCode s.reader addr = (b :: bs, { obj with code := b :: bs }, none) := by
      simp only [StateObject.getCode, hcode, hhash, hread]
      rw [if_neg (by simp), if_neg (by rw [← hhash]; exact hempty)]
    refine ⟨?_, ?_, ?_⟩
    · rw [heq]
      exact ⟨fun _ => hhash.symm, fun hnil => by simp at hnil⟩
    · simp only [codeOf, heq]
      simp [StateObject.getCode]
    · rw [heq]
      intro hnil
      simp at hnil
  · have heq : obj.getCode s.reader addr = (obj.code, obj, none) := by
      simp [StateObject.getCode, hcode]
    rw [heq]
    exact ⟨h, rfl, fun hnil => absurd hnil hcode⟩

/-- The code size is the length of the code. -/
theorem codeSize_eq (hread : s.reader.code addr (keccak256 code) = .ok code)
    (hsize : s.reader.codeSize addr (keccak256 code) = .ok code.length) (h : CodeCache code obj) :
    (obj.codeSize s.reader addr).1 = (s.codeOf addr obj).1.length := by
  by_cases hcode : obj.code = []
  · by_cases hempty : obj.data.codeHash = emptyCodeHash
    · simp [codeOf, StateObject.getCode, StateObject.codeSize, hcode, hempty]
    have hhash : obj.data.codeHash = keccak256 code :=
      (h.uncached hcode).resolve_left hempty
    rw [hhash] at hempty
    cases code with
    | nil => exact absurd rfl hempty
    | cons b bs =>
      simp [codeOf, StateObject.getCode, StateObject.codeSize, hcode, hhash, hempty, hread, hsize]
  · simp [codeOf, StateObject.getCode, StateObject.codeSize, hcode]

/-! ### Undoing code changes -/

/-- The code a log of code changes leads back to: that of its oldest entry, or the
    present one `v` if the log is empty. -/
def lead (es : List JournalEntry) (v : Bytes × Hash) : Bytes × Hash :=
  match es with
  | .codeChange _ prevCode :: _ => (prevCode, keccak256 prevCode)
  | _ => v

theorem lead_append {es fs : List JournalEntry} {v w : Bytes × Hash}
    (hes : ∀ e ∈ es, ∃ prev, e = .codeChange addr prev) (h : lead fs w = v) :
    lead (es ++ fs) w = lead es v := by
  cases es with
  | nil => exact h
  | cons e es =>
    obtain ⟨prev, rfl⟩ := hes e mem_cons_self
    rfl

/-- Undoing code changes of an account that exists gives it the code they lead to. -/
theorem undoAll_codeChanges {es : List JournalEntry}
    (hes : ∀ e ∈ es, ∃ prev, e = .codeChange addr prev) (hpeek : t.peek addr = some obj) :
    ∃ q obj', undoAll undoEntry es t = some q ∧ q.peek addr = some obj' ∧ q.reader = t.reader ∧
      q.codeOf addr obj' = lead es (t.codeOf addr obj) ∧
      (obj' = obj ∨ es ≠ [] ∧ CodeCache stored obj' ∧
        (obj'.code = [] → obj'.data.codeHash = emptyCodeHash)) := by
  induction es with
  | nil => exact ⟨t, obj, rfl, hpeek, rfl, rfl, .inl rfl⟩
  | cons e es ih =>
    obtain ⟨q, obj', hq, hpeek', hreader, -, -⟩ := ih fun e he => hes e (mem_cons_of_mem _ he)
    obtain ⟨prev, rfl⟩ := hes e mem_cons_self
    -- the oldest entry is undone last and decides
    rcases q.getStateObject_cases addr with ⟨r, -, hnone, -⟩ | ⟨o, r, heq, ho, -, hload⟩
    · rw [hnone] at hpeek'
      cases hpeek'
    obtain ⟨q', hundo, hpeek'', hr⟩ : ∃ q', undoEntry (.codeChange addr prev) q = some q' ∧
        q'.peek addr = some (o.setCode (keccak256 prev) prev) ∧ q'.reader = r.reader := by
      refine ⟨{ r.setStateObject addr (o.setCode (keccak256 prev) prev) with
        journal := r.journal.dropDirty (.codeChange addr prev) }, ?_, ?_, rfl⟩
      · simp only [undoEntry, revertEntry, revertObject, heq]
        rfl
      · exact r.peek_setStateObject addr _
    refine ⟨q', o.setCode (keccak256 prev) prev, ?_, hpeek'',
      hr.trans (hload.sameBlock.reader.trans hreader), q'.codeOf_setCode addr o prev,
      .inr ⟨cons_ne_nil _ _, CodeCache.setCode stored prev o, fun hnil => ?_⟩⟩
    · rw [undoAll, hq]
      exact hundo
    · exact congrArg keccak256 hnil

/-! ### Runs of code operations -/

/-- The operations on the code of one account, snapshots, and reverts to snapshots
    taken after the one with number `id`. -/
def CodeOp (addr : Address) (id : Nat) (_ : StateDB) : Op → Prop
  | .readAccount a | .getCode a | .getCodeSize a | .setCode a _ => a = addr
  | .snapshot => True
  | .revertToSnapshot revid => id < revid
  | _ => False

/-- No `SetCode` of the sequence is made on a cold account. -/
def SetsWarm (addr : Address) : StateDB → List Op → Prop
  | _, [] => True
  | s, op :: ops =>
    ((∃ code, op = .setCode addr code) → ¬ s.Cold addr) ∧
      ∀ t, step op s = some t → SetsWarm addr t ops

/-- The invariant of a run that started at `s`: undoing its log gives the account
    the code and code hash `target`. -/
structure CodeInside (stored : Bytes) (addr : Address) (target : Bytes × Hash) (s t : StateDB) :
    Prop where
  wf : t.WF
  reader : t.reader = s.reader
  log : ∃ obj es, t.peek addr = some obj ∧ CodeCache stored obj ∧
    t.journal.entries = s.journal.entries ++ es ∧
    (∀ e ∈ es, ∃ prev, e = .codeChange addr prev) ∧ lead es (t.codeOf addr obj) = target ∧
    (obj.code = [] → obj.data.codeHash ≠ emptyCodeHash → es = [])
  revisions : KeepsRevisions s t

theorem cold_iff (hpeek : t.peek addr = some obj) :
    t.Cold addr ↔ obj.code = [] ∧ obj.data.codeHash ≠ emptyCodeHash := by
  constructor
  · rintro ⟨obj', hpeek', hcode, hhash⟩
    rw [hpeek] at hpeek'
    cases hpeek'
    exact ⟨hcode, hhash⟩
  · rintro ⟨hcode, hhash⟩
    exact ⟨obj, hpeek, hcode, hhash⟩

variable {target : Bytes × Hash}

variable (h : CodeInside stored addr target s t)
include h

/-- A step that writes no entry and keeps the code of the account. -/
theorem CodeInside.of_quiet (hu : u.WF) (hreader : u.reader = t.reader) (hj : u.journal = t.journal)
    (hobj : ∀ obj, t.peek addr = some obj → CodeCache stored obj → ∃ obj', u.peek addr = some obj' ∧
      CodeCache stored obj' ∧ u.codeOf addr obj' = t.codeOf addr obj ∧
      (obj' = obj ∨ (obj'.code = [] → obj'.data.codeHash = emptyCodeHash))) :
    CodeInside stored addr target s u := by
  obtain ⟨obj, es, hpeek, hcache, hes, hall, hlead, hcold⟩ := h.log
  obtain ⟨obj', hpeek', hcache', hcode, hwarm⟩ := hobj obj hpeek hcache
  refine ⟨hu, hreader.trans h.reader,
    ⟨obj', es, hpeek', hcache', hj ▸ hes, hall, hcode ▸ hlead, fun hnil hne => ?_⟩,
    h.revisions.of_eq (hj ▸ rfl)⟩
  rcases hwarm with rfl | hwarm
  · exact hcold hnil hne
  · exact absurd (hwarm hnil) hne

/-- After the first `SetCode` the log leads to what that call journalled. -/
theorem CodeInside.setCode {target' : Bytes × Hash} (code : Bytes)
    (htarget : ∀ obj es, t.peek addr = some obj → CodeCache stored obj →
      lead es (t.codeOf addr obj) = target →
      (obj.code = [] → obj.data.codeHash ≠ emptyCodeHash → es = []) →
      (∀ e ∈ es, ∃ prev, e = .codeChange addr prev) →
      lead (es ++ [.codeChange addr obj.code]) (code, keccak256 code) = target') :
    CodeInside stored addr target' s (t.setCode addr code) := by
  obtain ⟨obj, es, hpeek, hcache, hes, hall, hlead, hcold⟩ := h.log
  rcases t.getStateObject_cases addr with ⟨r, -, hnone, -⟩ | ⟨o, r, heq, ho, -, hload⟩
  · rw [hnone] at hpeek
    cases hpeek
  rw [hpeek] at ho
  cases ho
  have hset : t.setCode addr code =
      (r.append (.codeChange addr obj.code)).setStateObject addr
        (obj.setCode (keccak256 code) code) := by
    simp [StateDB.setCode, getOrNewStateObject, heq, objectSetCode]
  have hentries : (r.journal.append (.codeChange addr obj.code)).entries =
      t.journal.entries ++ [.codeChange addr obj.code] := by
    rw [(r.journal.append_revisions _).2.2, hload.journal]
  rw [hset]
  refine ⟨?_, hload.sameBlock.reader.trans h.reader,
    ⟨obj.setCode (keccak256 code) code, es ++ [.codeChange addr obj.code],
      peek_setStateObject _ _ _, CodeCache.setCode stored code obj, ?_, ?_, ?_, ?_⟩, ?_⟩
  · exact ((keeps_writes t).change hload.writes rfl _ _).wf h.wf
  · exact hentries.trans (by rw [hes, append_assoc])
  · intro e he
    rcases mem_append.mp he with he | he
    · exact hall e he
    · exact ⟨obj.code, mem_singleton.mp he⟩
  · rw [codeOf_setCode]
    exact htarget obj es hpeek hcache hlead hcold hall
  · intro hnil hne
    exact absurd (congrArg keccak256 hnil) hne
  · exact h.revisions.of_eq ((r.journal.append_revisions _).1.trans (by rw [hload.journal]))

/-- Reverting to a snapshot taken inside the run stays inside. -/
theorem CodeInside.revertToSnapshot {id revid : Nat}
    (hs : ∀ r ∈ s.journal.validRevisions, r.id ≤ id) (hid : id < revid)
    (hrev : t.revertToSnapshot revid = some u) : CodeInside stored addr target s u := by
  obtain ⟨hrevs, n, q, j, delta, hn, hq, rfl, hj, -⟩ := h.revisions.revertToSnapshot hs hid hrev
  obtain ⟨obj, es, hpeek, hcache, hes, hall, hlead, hcold⟩ := h.log
  set k := n - s.journal.entries.length with hk
  have htake : t.journal.entries.take n = s.journal.entries ++ es.take k := by
    rw [hes, take_append, take_of_length_le hn]
  have hdrop : t.journal.entries.drop n = es.drop k := by
    rw [hes, drop_append, drop_eq_nil_of_le hn, nil_append]
  rw [hdrop] at hq
  obtain ⟨q', obj', hq', hpeek', hreader, hcode, hobj'⟩ :=
    undoAll_codeChanges (t := { t with unexpectedBalanceDelta := delta })
      (fun e he => hall e (mem_of_mem_drop he)) hpeek
  rw [hq] at hq'
  cases hq'
  have halltake : ∀ e ∈ es.take k, ∃ prev, e = .codeChange addr prev :=
    fun e he => hall e (mem_of_mem_take he)
  refine ⟨h.wf.revertToSnapshot hrev, hreader.trans h.reader,
    ⟨obj', es.take k, hpeek', ?_, hj.trans htake, halltake, ?_, ?_⟩, hrevs⟩
  · rcases hobj' with rfl | ⟨-, hcache', -⟩
    · exact hcache
    · exact hcache'
  · have happend := lead_append halltake hcode.symm
    rw [take_append_drop] at happend
    exact happend.symm.trans hlead
  · intro hnil hne
    rcases hobj' with rfl | ⟨-, -, hwarm⟩
    · rw [hcold hnil hne, take_nil]
    · exact absurd (hwarm hnil) hne

/-- **Step lemma**: every step that is not a `SetCode` on a cold account keeps the
    code the log leads back to. -/
theorem CodeInside.step {id : Nat} {op : Op}
    (hread : s.reader.code addr (keccak256 stored) = .ok stored)
    (hs : ∀ r ∈ s.journal.validRevisions, r.id ≤ id) (hop : CodeOp addr id t op)
    (hwarm : (∃ code, op = .setCode addr code) → ¬ t.Cold addr) (hstep : step op t = some u) :
    CodeInside stored addr target s u := by
  have hload := t.loaded_getStateObject addr
  have hpeekLoad := t.peek_getStateObject addr addr
  cases op with
  | readAccount a =>
    cases hop
    cases hstep
    refine h.of_quiet (hload.writes.wf h.wf) hload.sameBlock.reader hload.journal
      fun obj hpeek hcache => ?_
    refine ⟨obj, hpeekLoad.trans hpeek, hcache, ?_, .inl rfl⟩
    exact congrArg (fun r => ((obj.getCode r addr).1, obj.data.codeHash)) hload.sameBlock.reader
  | getCodeSize a =>
    cases hop
    cases hstep
    have hload := t.loaded_getCodeSize addr
    refine h.of_quiet (hload.writes.wf h.wf) hload.sameBlock.reader hload.journal
      fun obj hpeek hcache => ?_
    refine ⟨obj, ?_, hcache, ?_, .inl rfl⟩
    · rcases t.getStateObject_cases addr with ⟨r, heq, hnone, -⟩ | ⟨o, r, heq, -, hlive, -⟩
      · rw [hnone] at hpeek
        cases hpeek
      · rw [heq] at hpeekLoad
        simp only [getCodeSize, heq]
        exact hpeekLoad.trans hpeek
    · exact congrArg (fun r => ((obj.getCode r addr).1, obj.data.codeHash)) hload.sameBlock.reader
  | getCode a =>
    cases hop
    cases hstep
    have hload := t.loaded_getCode addr
    refine h.of_quiet (hload.writes.wf h.wf) hload.sameBlock.reader hload.journal
      fun obj hpeek hcache => ?_
    rcases t.getStateObject_cases addr with ⟨r, -, hnone, -⟩ | ⟨o, r, heq, ho, -, hr⟩
    · rw [hnone] at hpeek
      cases hpeek
    rw [hpeek] at ho
    cases ho
    have hreader : r.reader = t.reader := hr.sameBlock.reader
    obtain ⟨hcache', hcode, hwarm⟩ :=
      codeCache_getCode (s := t) (h.reader ▸ hread) hcache
    refine ⟨(obj.getCode t.reader addr).2.1, ?_, hcache', ?_, .inr hwarm⟩
    · simp only [getCode, heq, hreader]
      exact peek_setStateObject r addr _
    · rw [← hcode]
      exact congrArg (fun rd => (((obj.getCode t.reader addr).2.1.getCode rd addr).1, _))
        hload.sameBlock.reader
  | setCode a code =>
    cases hop
    cases hstep
    have hnot := hwarm ⟨code, rfl⟩
    refine h.setCode code fun obj es hpeek hcache hlead _ hall => ?_
    rw [cold_iff hpeek] at hnot
    -- the cache holds the code, or there is none: what is journalled is the code
    have hprev : lead [.codeChange addr obj.code] (code, keccak256 code) = t.codeOf addr obj := by
      by_cases hnil : obj.code = []
      · have hempty : obj.data.codeHash = emptyCodeHash := by
          by_contra hne
          exact hnot ⟨hnil, hne⟩
        simp [lead, codeOf, StateObject.getCode, hnil, hempty, emptyCodeHash]
      · simp [lead, codeOf, StateObject.getCode, hnil, hcache.cached hnil]
    exact (lead_append hall hprev).trans hlead
  | snapshot =>
    cases hstep
    obtain ⟨obj, es, hpeek, hcache, hes, hrest⟩ := h.log
    exact ⟨h.wf.snapshot, h.reader, ⟨obj, es, hpeek, hcache, hes, hrest⟩,
      h.revisions.snapshot (by simp [hes])⟩
  | revertToSnapshot revid => exact h.revertToSnapshot hs hop hstep
  | _ => exact hop.elim

omit h

/-- A log that leads back to no code belongs to an account that is not cold. -/
theorem CodeInside.not_cold (h : CodeInside stored addr ([], emptyCodeHash) s t) :
    ¬ t.Cold addr := by
  obtain ⟨obj, es, hpeek, -, -, -, hlead, hcold⟩ := h.log
  rw [cold_iff hpeek]
  rintro ⟨hnil, hne⟩
  rw [hcold hnil hne] at hlead
  exact hne (congrArg Prod.snd hlead)

/-- A `SetCode` on a cold account makes the log lead back to no code. -/
theorem CodeInside.setCode_cold (h : CodeInside stored addr target s t) (hcold : t.Cold addr)
    (code : Bytes) :
    CodeInside stored addr ([], emptyCodeHash) s (t.setCode addr code) ∧
      target.2 ≠ emptyCodeHash := by
  refine ⟨h.setCode code fun obj es hpeek _ _ hnone _ => ?_, ?_⟩
  · obtain ⟨hnil, hne⟩ := (cold_iff hpeek).mp hcold
    rw [hnone hnil hne, hnil]
    rfl
  · obtain ⟨obj, es, hpeek, -, -, -, hlead, hnone⟩ := h.log
    obtain ⟨hnil, hne⟩ := (cold_iff hpeek).mp hcold
    rw [hnone hnil hne] at hlead
    rw [← hlead]
    exact hne

/-- **Run lemma**: with warm `SetCode` calls only, the log leads back to the code at
    the start; with a cold one, to no code, although there was some. -/
theorem codeInside_run {id : Nat} {ops : List Op}
    (hread : s.reader.code addr (keccak256 stored) = .ok stored)
    (hs : ∀ r ∈ s.journal.validRevisions, r.id ≤ id) (hrun : Run (CodeOp addr id) t ops u)
    (ht : CodeInside stored addr target s t) :
    (SetsWarm addr t ops → CodeInside stored addr target s u) ∧
      (¬ SetsWarm addr t ops →
        CodeInside stored addr ([], emptyCodeHash) s u ∧ target.2 ≠ emptyCodeHash) := by
  induction hrun with
  | nil => exact ⟨fun _ => ht, fun h => absurd trivial h⟩
  | @cons t r u op ops hop hstep hrest ih =>
    refine ⟨fun hw => (ih (ht.step hread hs hop hw.1 hstep)).1 (hw.2 _ hstep), fun hw => ?_⟩
    by_cases hset : (∃ code, op = .setCode addr code) ∧ t.Cold addr
    · -- the first cold call: from here on the account is never cold again
      obtain ⟨⟨code, rfl⟩, hcold⟩ := hset
      cases hstep
      obtain ⟨hempty, hne⟩ := ht.setCode_cold hcold code
      refine ⟨Run.invariant (fun p p' op' hp hop' hstep' => ?_) hrest hempty, hne⟩
      exact hp.step hread hs hop' (fun _ => hp.not_cold) hstep'
    · have hwarm : (∃ code, op = .setCode addr code) → ¬ t.Cold addr :=
        fun hcode hcold => hset ⟨hcode, hcold⟩
      refine (ih (ht.step hread hs hop hwarm hstep)).2 fun hw' => hw ⟨hwarm, fun r' hr' => ?_⟩
      rw [hstep] at hr'
      cases hr'
      exact hw'

/-! ### The code after a revert -/

/-- The code getters return the same in both states. -/
structure SameCode (addr : Address) (s t : StateDB) : Prop where
  getCode : (t.getCode addr).1 = (s.getCode addr).1
  getCodeSize : (t.getCodeSize addr).1 = (s.getCodeSize addr).1
  getCodeHash : (t.getCodeHash addr).1 = (s.getCodeHash addr).1

/-- What the code getters return. -/
theorem code_getters (hread : s.reader.code addr (keccak256 stored) = .ok stored)
    (hsize : s.reader.codeSize addr (keccak256 stored) = .ok stored.length)
    (hpeek : s.peek addr = some obj) (hcache : CodeCache stored obj) :
    (s.getCode addr).1 = (s.codeOf addr obj).1 ∧
      (s.getCodeSize addr).1 = (s.codeOf addr obj).1.length ∧
      (s.getCodeHash addr).1 = (s.codeOf addr obj).2 := by
  rcases s.getStateObject_cases addr with ⟨r, -, hnone, -⟩ | ⟨o, r, heq, ho, -, hload⟩
  · rw [hnone] at hpeek
    cases hpeek
  rw [hpeek] at ho
  cases ho
  have hr : r.reader = s.reader := hload.sameBlock.reader
  refine ⟨?_, ?_, ?_⟩
  · simp [getCode, heq, hr, codeOf]
  · simp only [getCodeSize, heq, hr]
    exact codeSize_eq hread hsize hcache
  · simp [getCodeHash, readObject, heq, codeOf]

/-- The outer revert gives the account the code its log leads back to. -/
theorem CodeInside.revertToOwn (h : CodeInside stored addr target s.snapshot.2 t) :
    ∃ u obj, t.revertToSnapshot s.snapshot.1 = some u ∧ u.reader = s.reader ∧
      u.peek addr = some obj ∧ CodeCache stored obj ∧ u.codeOf addr obj = target := by
  obtain ⟨obj, es, hpeek, hcache, hes, hall, hlead, -⟩ := h.log
  obtain ⟨q, obj', hq, hpeek', hreader, hcode, hobj'⟩ := undoAll_codeChanges
    (t := { t with unexpectedBalanceDelta := s.unexpectedBalanceDelta }) hall hpeek
  obtain ⟨j, hu, -⟩ := h.revisions.revertToOwn h.wf hes hq
  refine ⟨_, obj', hu, hreader.trans h.reader, hpeek', ?_, hcode.trans hlead⟩
  rcases hobj' with rfl | ⟨-, hcache', -⟩
  · exact hcache
  · exact hcache'

/-- **A revert restores the code of an account that is in the database exactly when
    no `SetCode` of the sequence was made on a cold account.** -/
theorem revertToSnapshot_restores_code_iff {s t : StateDB} {addr : Address} {stored : Bytes}
    {ops : List Op} (hs : Reachable s) (hcode : StoredCode s addr stored)
    (hrun : Run (CodeOp addr s.snapshot.1) s.snapshot.2 ops t) :
    (∃ u, t.revertToSnapshot s.snapshot.1 = some u ∧ SameCode addr s u) ↔
      SetsWarm addr s.snapshot.2 ops := by
  have hwf := hs.wf
  obtain ⟨obj, hpeek, hhash, hcached⟩ := hcode.account
  have hcache : CodeCache stored obj := by
    refine ⟨fun hne => ?_, fun _ => .inr hhash⟩
    rcases hcached with hnil | heq
    · exact absurd hnil hne
    · rw [heq, hhash]
  have hstart : CodeInside stored addr (s.codeOf addr obj) s.snapshot.2 s.snapshot.2 :=
    ⟨hwf.snapshot, rfl, ⟨obj, [], hpeek, hcache, (append_nil _).symm,
      (fun _ he => by cases he), rfl, fun _ _ => rfl⟩, KeepsRevisions.refl _⟩
  obtain ⟨hwarm, hcold⟩ :=
    codeInside_run (s := s.snapshot.2) hcode.read (snapshot_ids_le hwf) hrun hstart
  obtain ⟨hg, hz, hh⟩ := code_getters hcode.read hcode.size hpeek hcache
  constructor
  · rintro ⟨u, hu, hsame⟩
    by_contra hnot
    obtain ⟨hempty, hne⟩ := hcold hnot
    obtain ⟨u', obj', hu', hreader, hpeek', hcache', htarget⟩ := hempty.revertToOwn
    rw [hu] at hu'
    cases hu'
    obtain ⟨-, -, hh'⟩ := code_getters (hreader ▸ hcode.read) (hreader ▸ hcode.size) hpeek' hcache'
    have := hsame.getCodeHash
    rw [hh', htarget, hh] at this
    exact hne this.symm
  · intro hsets
    obtain ⟨u, obj', hu, hreader, hpeek', hcache', htarget⟩ := (hwarm hsets).revertToOwn
    obtain ⟨hg', hz', hh'⟩ :=
      code_getters (hreader ▸ hcode.read) (hreader ▸ hcode.size) hpeek' hcache'
    rw [htarget] at hg' hz' hh'
    exact ⟨u, hu, hg'.trans hg.symm, hz'.trans hz.symm, hh'.trans hh.symm⟩

section
omit [Crypto]

/-- The state of a database with one contract, whose code is the byte 1. -/
def oneContract : StateDB :=
  letI := numberCrypto
  new 0 .empty
    { Reader.empty with
      account := fun a =>
        .ok (if a = 7 then some { newEmptyStateAccount with codeHash := keccak256 [1] } else none)
      code := fun a h => .ok (if a = 7 ∧ h = keccak256 [1] then [1] else [])
      codeSize := fun a h => .ok (if a = 7 ∧ h = keccak256 [1] then 1 else 0) }

/-- One `SetCode` on the cold contract: the revert leaves it without code. -/
theorem revertToSnapshot_loses_cold_code :
    letI := numberCrypto
    StoredCode oneContract 7 [1] ∧
      ∃ u, ((oneContract.snapshot.2.setCode 7 [2]).revertToSnapshot oneContract.snapshot.1) =
        some u ∧
        (oneContract.getCode 7).1 = [1] ∧ (oneContract.getCodeHash 7).1 = 1 ∧
        (u.getCode 7).1 = [] ∧ (u.getCodeSize 7).1 = 0 ∧ (u.getCodeHash 7).1 = emptyCodeHash := by
  let _ : Crypto := numberCrypto
  refine ⟨⟨rfl, rfl, ?_⟩, ?_⟩
  · exact ⟨_, rfl, rfl, .inl rfl⟩
  · exact ⟨_, rfl, by decide, by decide, by decide, by decide, by decide⟩

/-- A `GetCode` before the same `SetCode` fills the cache, and the revert is right. -/
theorem revertToSnapshot_restores_warm_code :
    letI := numberCrypto
    ∃ t u, Run (CodeOp 7 oneContract.snapshot.1) oneContract.snapshot.2
        [.getCode 7, .setCode 7 [2]] t ∧
      t.revertToSnapshot oneContract.snapshot.1 = some u ∧ SameCode 7 oneContract u := by
  let _ : Crypto := numberCrypto
  have hrun : Run (CodeOp 7 oneContract.snapshot.1) oneContract.snapshot.2
      [.getCode 7, .setCode 7 [2]] _ := .cons rfl rfl (.cons rfl rfl (.nil _))
  have hstored : StoredCode oneContract 7 [1] := ⟨rfl, rfl, _, rfl, rfl, .inl rfl⟩
  have hwarm : SetsWarm 7 oneContract.snapshot.2 [.getCode 7, .setCode 7 [2]] := by
    refine ⟨fun h => ?_, fun t ht => ⟨fun _ hcold => ?_, fun _ _ => trivial⟩⟩
    · obtain ⟨_, h⟩ := h
      cases h
    · cases ht
      obtain ⟨obj, hobj, hnil, -⟩ := hcold
      cases hobj
      cases hnil
  obtain ⟨u, hu, hsame⟩ :=
    (revertToSnapshot_restores_code_iff (.new _ _ _) hstored hrun).mpr hwarm
  exact ⟨_, u, hrun, hu, hsame⟩

end

end GethArb.StateDB
