/-
  **The zombie counters of the journal.**  `journal.zombieEntries` should count the
  `createZombieChange` entries of each address; `Finalise` compares it with the
  dirty counter to tell an account that was only brought back as a zombie from
  one that was also changed.

  Two places forget a count: `journal.reset` does not clear the map, and
  `journal.revert` looks at it only when the dirty counter of the address reaches
  zero.  `zombiesExact_iff_safe` is the exact condition on the steps of a run under
  which the counters are right in every state it goes through.
-/
import GethArb.Finalise

namespace GethArb

open List JournalEntry Journal

variable (j : Journal) (es fs : List JournalEntry)

namespace Journal

/-! ### Counting zombie entries -/

/-- The number of `createZombieChange` entries of an address. -/
def zombieCount (entries : List JournalEntry) (addr : Address) : Nat :=
  entries.countP fun e => e = .createZombieChange addr

/-- The counters say how many zombie entries there are; an absent one says zero. -/
def ZombiesCounted (j : Journal) : Prop :=
  ∀ a, j.zombieEntries.get a = zombieCount j.entries a

theorem zombieCount_append (e : JournalEntry) (a : Address) :
    zombieCount (es ++ [e]) a = zombieCount es a + if e = .createZombieChange a then 1 else 0 := by
  unfold zombieCount
  simp

theorem zombieCount_cons (e : JournalEntry) (a : Address) :
    zombieCount (e :: es) a = zombieCount es a + if e = .createZombieChange a then 1 else 0 := by
  unfold zombieCount
  rw [countP_cons]
  simp

theorem zombieCount_eq_zero {es : List JournalEntry} {a : Address} :
    zombieCount es a = 0 ↔ createZombieChange a ∉ es := by
  unfold zombieCount
  rw [countP_eq_zero]
  constructor
  · intro h hmem
    exact h _ hmem (by simp)
  · intro h e he heq
    rw [decide_eq_true_eq] at heq
    exact h (heq ▸ he)

theorem get_append_zombies (e : JournalEntry) (a : Address) :
    (j.append e).zombieEntries.get a =
      j.zombieEntries.get a + if e = .createZombieChange a then 1 else 0 := by
  cases e with
  | createZombieChange addr =>
    simp only [append, dirtied, isZombie, if_true, get_increment]
    by_cases ha : a = addr
    · simp [ha]
    · simp [ha, Ne.symm ha]
  | _ => simp [append, dirtied, isZombie]

/-- Writing to the journal keeps the counters right. -/
theorem ZombiesCounted.written {j k : Journal} (hj : ZombiesCounted j) (h : Written j k) :
    ZombiesCounted k := by
  induction h with
  | refl => exact hj
  | @append k _ e ih =>
    intro a
    rw [get_append_zombies, (k.append_revisions e).2.2, zombieCount_append, ih a]
    push_cast
    rfl
  | dirty _ ih => exact ih

/-- Clearing the journal keeps them right exactly if there is nothing to forget. -/
theorem zombiesCounted_reset {j : Journal} (hj : ZombiesCounted j) :
    ZombiesCounted j.reset ↔ ∀ a, createZombieChange a ∉ j.entries := by
  refine forall_congr' fun a => ?_
  have hcount : j.reset.zombieEntries.get a = zombieCount j.entries a := hj a
  rw [hcount, ← zombieCount_eq_zero]
  simp [reset, zombieCount]

/-! ### Undoing zombie entries -/

theorem get_dropDirties_dirties (j : Journal) (a : Address) :
    (fs.foldr (fun e j => j.dropDirty e) j).dirties.get a = j.dirties.get a - dirtyCount fs a := by
  induction fs with
  | nil => simp [dirtyCount]
  | cons e fs ih =>
    rw [foldr_cons, get_dropDirty_dirties, ih]
    unfold dirtyCount
    rw [countP_cons]
    push_cast
    simp only [decide_eq_true_eq]
    omega

/-- The zombie counter is only looked at when the dirty counter reaches zero. -/
theorem get_dropDirty_zombies (e : JournalEntry) (a : Address) :
    (j.dropDirty e).zombieEntries.get a = j.zombieEntries.get a -
      if e = .createZombieChange a ∧ j.dirties.get a = 1 then 1 else 0 := by
  cases e with
  | createZombieChange addr =>
    simp only [dropDirty, dirtied, isZombie]
    by_cases ha : a = addr
    · subst ha
      by_cases hone : j.dirties.get a = 1
      · simp [hone, get_decrement]
      · have hne : j.dirties.get a - 1 ≠ 0 := by omega
        simp [hone, hne]
    · by_cases hone : j.dirties.get addr - 1 = 0
      · simp [hone, get_decrement, ha, Ne.symm ha]
      · simp [hone, Ne.symm ha]
  | _ => simp [dropDirty, dirtied, isZombie]

/-- Each `createZombieChange` of the address among the entries `fs` is, when it is
    undone, the only change the dirty counter `n` still counts. -/
def LastCounted (n : Int) (addr : Address) (fs : List JournalEntry) : Prop :=
  ∀ gs, (createZombieChange addr :: gs) <:+ fs →
    n = dirtyCount (.createZombieChange addr :: gs) addr

theorem lastCounted_cons {n : Int} {a : Address} {e : JournalEntry} {fs : List JournalEntry} :
    LastCounted n a (e :: fs) ↔
      LastCounted n a fs ∧ (e = .createZombieChange a → n = dirtyCount (e :: fs) a) := by
  constructor
  · intro h
    refine ⟨fun gs hgs => h gs (hgs.trans (suffix_cons e fs)), ?_⟩
    rintro rfl
    exact h fs suffix_rfl
  · rintro ⟨hfs, he⟩ gs hgs
    rcases suffix_cons_iff.mp hgs with heq | hgs
    · obtain ⟨rfl, rfl⟩ := cons.inj heq
      exact he rfl
    · exact hfs gs hgs

/-- Undoing entries uncounts at most the zombie entries among them, and all of them
    exactly if each was the last change counted. -/
theorem get_dropDirties_zombies (j : Journal) (a : Address) :
    j.zombieEntries.get a - zombieCount fs a ≤
        (fs.foldr (fun e j => j.dropDirty e) j).zombieEntries.get a ∧
      ((fs.foldr (fun e j => j.dropDirty e) j).zombieEntries.get a =
          j.zombieEntries.get a - zombieCount fs a ↔ LastCounted (j.dirties.get a) a fs) := by
  induction fs with
  | nil =>
    refine ⟨by simp, iff_of_true (by simp [zombieCount]) fun gs hgs => ?_⟩
    cases suffix_nil.mp hgs
  | cons e fs ih =>
    obtain ⟨hle, hiff⟩ := ih
    rw [foldr_cons, get_dropDirty_zombies, get_dropDirties_dirties, zombieCount_cons,
      lastCounted_cons, ← hiff]
    by_cases he : e = .createZombieChange a
    · have hcount : (dirtyCount (e :: fs) a : Int) = dirtyCount fs a + 1 := by
        unfold dirtyCount
        rw [he]
        simp [dirtied]
      rw [hcount]
      simp only [he, true_and, if_true, forall_const]
      split
      · exact ⟨by omega, fun h => ⟨by omega, by omega⟩, fun h => by omega⟩
      · exact ⟨by omega, fun h => by omega, fun h => by omega⟩
    · simp only [he, false_and, if_false, false_implies, and_true]
      exact ⟨by omega, by omega⟩

end Journal

namespace StateDB

variable [Crypto]

/-! ### Steps -/

/-- What keeps the counters right: an operation that clears the journal finds no
    zombie entry in it, and a revert undoes each zombie entry when the dirty counter
    of its account counts nothing else. -/
structure ZombieSafe (s : StateDB) (op : Op) : Prop where
  clear : s.Clears op → ∀ a, createZombieChange a ∉ s.journal.entries
  revert : ∀ revid idx r, op = .revertToSnapshot revid →
    s.journal.findRevision revid = some (idx, r) → ∀ a,
      LastCounted (s.journal.dirties.get a) a (s.journal.entries.drop r.journalIndex)

variable {s t : StateDB}

/-- A revert keeps the counters right exactly if it is safe. -/
theorem zombiesCounted_revertToSnapshot {revid : Nat} (hs : s.journal.ZombiesCounted)
    (h : s.revertToSnapshot revid = some t) :
    t.journal.ZombiesCounted ↔ s.ZombieSafe (.revertToSnapshot revid) := by
  obtain ⟨idx, r, q, hfind, -, hq, rfl⟩ := revertToSnapshot_some h
  have hj : q.journal = (s.journal.entries.drop r.journalIndex).foldr (fun e j => j.dropDirty e)
    s.journal := (undoAll_frame hq).1
  -- what is left is right, if what is undone is uncounted
  have hleft : ∀ a, q.journal.zombieEntries.get a =
        zombieCount (s.journal.entries.take r.journalIndex) a ↔
      LastCounted (s.journal.dirties.get a) a (s.journal.entries.drop r.journalIndex) := by
    intro a
    have hsplit : zombieCount s.journal.entries a =
        zombieCount (s.journal.entries.take r.journalIndex) a +
          zombieCount (s.journal.entries.drop r.journalIndex) a := by
      unfold zombieCount
      rw [← countP_append, take_append_drop]
    have hcount := hs a
    rw [← (get_dropDirties_zombies _ s.journal a).2, hj]
    omega
  refine (forall_congr' hleft).trans ⟨fun hlast => ⟨fun hclear => hclear.elim, ?_⟩, fun hsafe => ?_⟩
  · intro revid' idx' r' hop hfind'
    cases hop
    rw [hfind] at hfind'
    cases hfind'
    exact hlast
  · exact hsafe.revert revid idx r rfl hfind

/-- **Step lemma**: a step keeps the counters right exactly if it is safe. -/
theorem zombiesCounted_step {op : Op} (hs : s.journal.ZombiesCounted)
    (h : step op s = some t) : t.journal.ZombiesCounted ↔ s.ZombieSafe op := by
  by_cases hrev : ∃ revid, op = .revertToSnapshot revid
  · obtain ⟨revid, rfl⟩ := hrev
    exact zombiesCounted_revertToSnapshot hs h
  have hnorev : ∀ revid idx r, op = .revertToSnapshot revid →
      s.journal.findRevision revid = some (idx, r) → ∀ a, LastCounted
        (s.journal.dirties.get a) a (s.journal.entries.drop r.journalIndex) :=
    fun revid _ _ hop => absurd ⟨revid, hop⟩ hrev
  cases effect_of_step h with
  | snapshot heq =>
    rw [heq]
    exact iff_of_true hs ⟨fun hclear => hclear.elim, hnorev⟩
  | revert revid => exact absurd ⟨revid, rfl⟩ hrev
  | clear hop hclear =>
    rw [hclear.journal, zombiesCounted_reset hs]
    exact ⟨fun hnone => ⟨fun _ => hnone, hnorev⟩, fun hsafe => hsafe.clear hop⟩
  | write hop hwrites =>
    exact iff_of_true (hs.written hwrites.journal) ⟨fun hclear => absurd hclear hop, hnorev⟩

/-! ### Which accounts `Finalise` deletes -/

/-- The transaction changed the account other than by a `createZombieChange`.  A touch
    of the RIPEMD precompile is such a change even if it was reverted. -/
def ChangedOtherwise (s : StateDB) (a : Address) : Prop :=
  (∃ e ∈ s.journal.entries, e.dirtied = some a ∧ e ≠ .createZombieChange a) ∨
    (a = ripemd ∧ (dirtyCount s.journal.entries a : Int) < s.journal.dirties.get a)

/-- The zombie counters of a state do what they are for: they count the zombie
    entries, and `Finalise` deletes an empty dirty account exactly if it was changed
    otherwise. -/
structure ZombiesExact (s : StateDB) : Prop where
  counted : s.journal.ZombiesCounted
  finalise : ∀ ord a obj, s.stateObjects.lookup a = some obj → a ∈ s.journal.dirties →
    obj.selfDestructed = false → obj.empty = true →
      ((s.finalise ord true).stateObjects.lookup a = none ↔ s.ChangedOtherwise a)

omit [Crypto] in
theorem dirtyCount_eq_zombieCount {es : List JournalEntry} {a : Address} :
    zombieCount es a ≤ dirtyCount es a ∧
      (zombieCount es a = dirtyCount es a ↔
        ¬ ∃ e ∈ es, e.dirtied = some a ∧ e ≠ .createZombieChange a) := by
  induction es with
  | nil => simp [zombieCount, dirtyCount]
  | cons e es ih =>
    obtain ⟨hle, hiff⟩ := ih
    have hd : dirtyCount (e :: es) a = dirtyCount es a + if e.dirtied = some a then 1 else 0 := by
      unfold dirtyCount
      rw [countP_cons]
      simp
    rw [hd, zombieCount_cons]
    simp only [mem_cons, exists_eq_or_imp, not_or, ← hiff]
    by_cases he : e = .createZombieChange a
    · simp [he, dirtied, hle]
    by_cases hdirty : e.dirtied = some a
    · simp only [he, hdirty, if_true, if_false, not_false_eq_true, ne_eq, and_self,
        not_true_eq_false,
        false_and, iff_false]
      omega
    · simp [he, hdirty, hle]

theorem zombiesExact_of_counted (hs : s.WF) (hz : s.journal.ZombiesCounted) : s.ZombiesExact := by
  refine ⟨hz, fun ord a obj hobj hdirty hsd hempty => ?_⟩
  obtain ⟨n, hn⟩ := Finmap.mem_iff.mp hdirty
  have hget : s.journal.dirties.get a = n := by
    rw [GoMap.get, hn]
    rfl
  have hheld := congrArg Held.object (s.held_finalise ord true a)
  simp only [hn, Option.elim_some, held, Held.finalise, hobj, finaliseDeletes, hsd, hempty, hz a]
    at hheld
  rw [hheld]
  have hcovers := hs.journal.counts.covers a
  have hprecise := hs.journal.counts.precise a
  obtain ⟨hle, hiff⟩ := @dirtyCount_eq_zombieCount s.journal.entries a
  by_cases hzombie : (zombieCount s.journal.entries a : Int) = n
  · -- every change counted is a zombie entry
    have heq : zombieCount s.journal.entries a = dirtyCount s.journal.entries a := by
      omega
    simp only [hzombie]
    refine iff_of_false (by simp) ?_
    rintro (hother | ⟨-, hlt⟩)
    · exact hiff.mp heq hother
    · omega
  · simp only [hzombie]
    refine iff_of_true (by simp) ?_
    by_cases heq : zombieCount s.journal.entries a = dirtyCount s.journal.entries a
    · by_cases hrip : a = ripemd
      · exact .inr ⟨hrip, by omega⟩
      · have := hprecise hrip
        omega
    · exact .inl (not_not.mp fun hother => heq (hiff.mpr hother))

/-! ### Runs -/

/-- **Run lemma**: from a state with right counters. -/
theorem Run.zombiesExact_iff {ops : List Op} (hrun : Run (fun _ _ => True) s ops t) (hwf : s.WF)
    (hs : s.journal.ZombiesCounted) :
    (Run (fun r _ => r.ZombiesExact) s ops t ∧ t.ZombiesExact) ↔ Run ZombieSafe s ops t := by
  induction hrun with
  | nil s => exact iff_of_true ⟨.nil s, zombiesExact_of_counted hwf hs⟩ (.nil s)
  | @cons s r t op ops _ hstep _ ih =>
    have hsafe := zombiesCounted_step hs hstep
    constructor
    · rintro ⟨hexact, ht⟩
      cases hexact with
      | cons _ hstep' hrest =>
        rw [hstep] at hstep'
        cases hstep'
        -- the state after the first step is on the run
        have hr : r.journal.ZombiesCounted := by
          cases hrest with
          | nil => exact ht.counted
          | cons hr _ _ => exact hr.counted
        exact .cons (hsafe.mp hr) hstep ((ih (hwf.step hstep) hr).mp ⟨hrest, ht⟩)
    · intro hrun
      cases hrun with
      | cons hop hstep' hrest =>
        rw [hstep] at hstep'
        cases hstep'
        have hr := hsafe.mpr hop
        obtain ⟨hexact, ht⟩ := (ih (hwf.step hstep) hr).mpr hrest
        exact ⟨.cons (zombiesExact_of_counted hwf hs) hstep hexact, ht⟩

/-- **The zombie counters are exact in every state a run goes through exactly if each
    of its steps is safe.** -/
theorem zombiesExact_iff_safe (root : Hash) (db : Database) (reader : Reader) {t : StateDB}
    {ops : List Op} (hrun : Run (fun _ _ => True) (new root db reader) ops t) :
    (Run (fun s _ => s.ZombiesExact) (new root db reader) ops t ∧ t.ZombiesExact) ↔
      Run ZombieSafe (new root db reader) ops t :=
  hrun.zombiesExact_iff (Reachable.new root db reader).wf fun _ => rfl

omit [Crypto] in
/-- An empty account is deleted, brought back as a zombie in the next transaction, and
    touched in the one after that: the counter is stale, and `Finalise` keeps the
    touched account. -/
theorem zombieEntries_stale :
    letI := numberCrypto
    ∃ s t, Run (fun _ _ => True) (new 0 .empty .empty)
        [.addBalance 7 0, .finalise .ascending true, .createZombieIfDeleted 7,
          .finalise .ascending true] s ∧
      s.journal.entries = [] ∧ s.journal.zombieEntries.get 7 = 1 ∧
      StateDB.step (.addBalance 7 0) s = some t ∧ t.journal.entries = [.touchChange 7] ∧
      (t.stateObjects.lookup 7).map (fun obj => (obj.empty, obj.selfDestructed)) =
        some (true, false) ∧ ((t.finalise .ascending true).stateObjects.lookup 7).isSome := by
  let _ : Crypto := numberCrypto
  exact ⟨_, _,
    .cons trivial rfl (.cons trivial rfl (.cons trivial rfl (.cons trivial rfl (.nil _)))),
    by decide, by decide, rfl, by decide, by decide, by decide⟩

omit [Crypto] in
/-- A zombie that is reverted in the transaction that made it: every step is safe. -/
theorem zombiesExact_reverted_zombie :
    letI := numberCrypto
    ∃ t, Run ZombieSafe (new 0 .empty .empty)
        [.addBalance 7 0, .finalise .ascending true, .snapshot, .createZombieIfDeleted 7,
          .revertToSnapshot 0] t ∧ t.ZombiesExact := by
  let _ : Crypto := numberCrypto
  let s₁ := ((new 0 .empty .empty).addBalance 7 0).2
  let s₄ := (s₁.finalise .ascending true).snapshot.2.createZombieIfDeleted 7
  obtain ⟨t, ht⟩ : ∃ t, step (.revertToSnapshot 0) s₄ = some t :=
    Option.isSome_iff_exists.mp (by decide)
  have hclear : s₁.ZombieSafe (.finalise .ascending true) := by
    refine ⟨fun _ a hmem => ?_, fun _ _ _ h => by cases h⟩
    have hentries : s₁.journal.entries = [.createObjectChange 7, .touchChange 7] := by decide
    rw [hentries] at hmem
    simp at hmem
  have hrevert : s₄.ZombieSafe (.revertToSnapshot 0) := by
    refine ⟨False.elim, fun revid idx r h hfind a gs hgs => ?_⟩
    cases h
    have hfound : s₄.journal.findRevision 0 = some (0, ⟨0, 0, 0⟩) := by decide
    have hentries : s₄.journal.entries = [.createZombieChange 7] := by decide
    rw [hfound] at hfind
    cases hfind
    rw [hentries, drop_zero, suffix_cons_iff] at hgs
    rcases hgs with heq | hgs
    · cases heq
      decide
    · cases suffix_nil.mp hgs
  -- the conditions of the steps are the only difference between the two runs
  have hrun : ∀ P : StateDB → Op → Prop, (∀ s, P s (.addBalance 7 0) ∧ P s .snapshot ∧
      P s (.createZombieIfDeleted 7)) → P s₁ (.finalise .ascending true) →
      P s₄ (.revertToSnapshot 0) → Run P (new 0 .empty .empty) _ t := fun P h h₁ h₄ =>
    .cons (h _).1 rfl
      (.cons h₁ rfl (.cons (h _).2.1 rfl (.cons (h _).2.2 rfl (.cons h₄ ht (.nil _)))))
  have hsafe := hrun ZombieSafe (fun s => ⟨⟨False.elim, fun _ _ _ h => by cases h⟩,
    ⟨False.elim, fun _ _ _ h => by cases h⟩, False.elim, fun _ _ _ h => by cases h⟩) hclear hrevert
  have hany := hrun (fun _ _ => True) (fun _ => ⟨trivial, trivial, trivial⟩) trivial trivial
  exact ⟨t, hsafe, ((zombiesExact_iff_safe 0 .empty .empty hany).mpr hsafe).2⟩

end StateDB

end GethArb
