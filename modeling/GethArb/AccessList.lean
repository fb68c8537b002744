/-
  **The per-transaction access list and transient storage**
  (`core/state/access_list.go`, `core/state/transient_storage.go`).

  The access list maps an address to an index into a list of slot sets, `-1`
  meaning that the address has no slots.  Its deletions only make sense in the
  reverse order of the additions: `DeleteSlot` cuts the slot list at the index
  of an emptied set.  `deleteSlot_addSlot` is what the journal relies on, and it
  needs that no slot set is empty to begin with (`SlotsNonempty`).

  An index out of range is a Go panic, `none` here.
-/
import GethArb.Types

namespace GethArb

open List Finset

/-! ### Access list -/

structure AccessList where
  addresses : GoMap Address Int
  slots : List (Finset Hash)
deriving DecidableEq

namespace AccessList

def new : AccessList := ⟨∅, []⟩

def containsAddress (al : AccessList) (address : Address) : Bool :=
  (al.addresses.lookup address).isSome

/-- The slice read `al.slots[idx]`. -/
def slotsAt (al : AccessList) (idx : Int) : Option (Finset Hash) :=
  if idx < 0 then none else al.slots[idx.toNat]?

/-- `Contains`: whether the address is present, and whether the slot is. -/
def contains (al : AccessList) (address : Address) (slot : Hash) : Option (Bool × Bool) :=
  match al.addresses.lookup address with
  | none => some (false, false)
  | some idx =>
    if idx = -1 then some (true, false)
    else (al.slotsAt idx).map fun slotmap => (true, decide (slot ∈ slotmap))

/-- `AddAddress`, with its result: whether the address was added. -/
def addAddress (al : AccessList) (address : Address) : AccessList × Bool :=
  match al.addresses.lookup address with
  | some _ => (al, false)
  | none => ({ al with addresses := al.addresses.insert address (-1) }, true)

/-- `AddSlot`, with its results: whether the address and whether the slot was added. -/
def addSlot (al : AccessList) (address : Address) (slot : Hash) :
    Option (AccessList × Bool × Bool) :=
  let fresh : AccessList :=
    ⟨al.addresses.insert address al.slots.length, al.slots ++ [{slot}]⟩
  match al.addresses.lookup address with
  | none => some (fresh, true, true)
  | some idx =>
    if idx = -1 then some (fresh, false, true)
    else (al.slotsAt idx).map fun slotmap =>
      if slot ∈ slotmap then (al, false, false)
      else ({ al with slots := al.slots.set idx.toNat (insert slot slotmap) }, false, true)

def deleteSlot (al : AccessList) (address : Address) (slot : Hash) : Option AccessList :=
  match al.addresses.lookup address with
  | none => none
  | some idx =>
    (al.slotsAt idx).map fun slotmap =>
      if slotmap.erase slot = ∅ then
        ⟨al.addresses.insert address (-1), al.slots.take idx.toNat⟩
      else { al with slots := al.slots.set idx.toNat (slotmap.erase slot) }

def deleteAddress (al : AccessList) (address : Address) : AccessList :=
  { al with addresses := al.addresses.erase address }

/-- No address is listed with an empty set of slots. -/
def SlotsNonempty (al : AccessList) : Prop := ∀ slotmap ∈ al.slots, slotmap.Nonempty

theorem slotsNonempty_new : new.SlotsNonempty := by
  intro slotmap h
  cases h

variable {al al' : AccessList}

theorem SlotsNonempty.addAddress (h : al.SlotsNonempty) (address : Address) :
    (al.addAddress address).1.SlotsNonempty := by
  unfold AccessList.addAddress
  split <;> exact h

variable {address : Address}

theorem SlotsNonempty.addSlot {slot : Hash} {addrChange slotChange : Bool} (h : al.SlotsNonempty)
    (hadd : al.addSlot address slot = some (al', addrChange, slotChange)) : al'.SlotsNonempty := by
  -- a set is either appended as a singleton or grows
  have happend : ∀ slotmap ∈ al.slots ++ [{slot}], slotmap.Nonempty := by
    intro slotmap hmem
    rcases mem_append.mp hmem with hmem | hmem
    · exact h slotmap hmem
    · rw [List.mem_singleton.mp hmem]
      exact singleton_nonempty slot
  unfold AccessList.addSlot at hadd
  split at hadd
  · obtain ⟨rfl, -⟩ := by simpa using hadd
    exact happend
  split at hadd
  · obtain ⟨rfl, -⟩ := by simpa using hadd
    exact happend
  obtain ⟨slotmap, -, hadd⟩ := Option.map_eq_some_iff.mp hadd
  split at hadd
  · obtain ⟨rfl, -⟩ := by simpa using hadd
    exact h
  obtain ⟨rfl, -⟩ := by simpa using hadd
  intro slotmap' hmem
  rcases mem_or_eq_of_mem_set hmem with hmem | rfl
  · exact h slotmap' hmem
  · exact insert_nonempty slot slotmap

theorem SlotsNonempty.deleteSlot {slot : Hash} (h : al.SlotsNonempty)
    (hdel : al.deleteSlot address slot = some al') : al'.SlotsNonempty := by
  unfold AccessList.deleteSlot at hdel
  split at hdel
  · cases hdel
  obtain ⟨slotmap, -, rfl⟩ := Option.map_eq_some_iff.mp hdel
  split_ifs with hne
  · intro slotmap' hmem
    exact h slotmap' (mem_of_mem_take hmem)
  intro slotmap' hmem
  rcases mem_or_eq_of_mem_set hmem with hmem | rfl
  · exact h slotmap' hmem
  · exact nonempty_iff_ne_empty.mpr hne

/-- `DeleteAddress` takes back `AddAddress`. -/
theorem deleteAddress_addAddress (hadd : al.addAddress address = (al', true)) :
    al'.deleteAddress address = al := by
  unfold addAddress at hadd
  split at hadd
  · cases hadd
  · rename_i hnone
    obtain rfl := (Prod.mk.inj hadd).1
    simp [deleteAddress, GoMap.erase_insert_of_lookup_none _ _ _ hnone]

theorem eq_of_addAddress_false (hadd : al.addAddress address = (al', false)) : al' = al := by
  unfold addAddress at hadd
  split at hadd
  · exact (Prod.mk.inj hadd).1.symm
  · cases hadd

/-- Undoing the two journalled changes of `AddSlot`, slot first, gives back the
    list it started from. -/
theorem deleteSlot_addSlot {slot : Hash} {addrChange slotChange : Bool} (hne : al.SlotsNonempty)
    (hadd : al.addSlot address slot = some (al', addrChange, slotChange)) :
    if slotChange then
      ∃ al'', al'.deleteSlot address slot = some al'' ∧
        (if addrChange then al''.deleteAddress address else al'') = al
    else addrChange = false ∧ al' = al := by
  obtain ⟨addresses, slots⟩ := al
  unfold addSlot at hadd
  -- the freshly appended set is the last one, so cutting there restores the list
  have hfresh : (⟨addresses.insert address (slots.length : Int), slots ++ [{slot}]⟩ :
        AccessList).deleteSlot address slot =
      some ⟨addresses.insert address (-1), slots⟩ := by
    simp [deleteSlot, slotsAt]
  split at hadd
  · rename_i hnone
    obtain ⟨rfl, rfl, rfl⟩ := by simpa using hadd
    refine ⟨_, hfresh, ?_⟩
    simp [deleteAddress, GoMap.erase_insert_of_lookup_none _ _ _ hnone]
  rename_i idx hsome
  split at hadd
  · rename_i hidx
    obtain ⟨rfl, rfl, rfl⟩ := by simpa using hadd
    refine ⟨_, hfresh, ?_⟩
    simp [GoMap.insert_of_lookup_some _ _ _ (hidx ▸ hsome)]
  obtain ⟨slotmap, hslots, hadd⟩ := Option.map_eq_some_iff.mp hadd
  split at hadd
  · obtain ⟨rfl, rfl, rfl⟩ := by simpa using hadd
    exact ⟨rfl, rfl⟩
  rename_i hnot
  obtain ⟨rfl, rfl, rfl⟩ := by simpa using hadd
  -- an existing set grew by the slot; it was nonempty, so it is not cut away
  obtain ⟨hpos, hget⟩ : ¬ idx < 0 ∧ slots[idx.toNat]? = some slotmap := by
    simpa [slotsAt] using hslots
  obtain ⟨hlt, hgetElem⟩ := List.getElem?_eq_some_iff.mp hget
  have hnonempty : slotmap ≠ ∅ :=
    nonempty_iff_ne_empty.mp (hne slotmap (hgetElem ▸ getElem_mem hlt))
  have hback : slots.set idx.toNat slotmap = slots := by
    rw [← hgetElem]
    exact set_getElem_self hlt
  simp [deleteSlot, slotsAt, hsome, hpos, hlt, erase_insert hnot, hnonempty, hback]

end AccessList

/-! ### Transient storage -/

abbrev TransientStorage := GoMap Address (GoMap Hash Hash)

namespace TransientStorage

def set (t : TransientStorage) (addr : Address) (key value : Hash) : TransientStorage :=
  if value = 0 then
    match t.lookup addr with
    | none => t
    | some storage =>
      if storage.erase key = ∅ then t.erase addr else t.insert addr (storage.erase key)
  else t.insert addr (((t.lookup addr).getD ∅).insert key value)

def get (t : TransientStorage) (addr : Address) (key : Hash) : Hash :=
  match t.lookup addr with
  | none => 0
  | some storage => (storage.lookup key).getD 0

theorem get_set (t : TransientStorage) (addr a : Address) (key k value : Hash) :
    (t.set addr key value).get a k = if a = addr ∧ k = key then value else t.get a k := by
  unfold set
  by_cases ha : a = addr
  · subst ha
    split
    · rename_i hv
      split
      · rename_i hnone
        simp [get, hnone, hv]
      rename_i storage hsome
      split
      · rename_i hempty
        -- the emptied map held at most this key
        have hk : ∀ j, j ≠ key → storage.lookup j = none := by
          intro j hj
          have := congrArg (Finmap.lookup j) hempty
          simpa [GoMap.lookup_erase_ite, hj] using this
        by_cases hkk : k = key
        · simp [get, hkk, hv]
        · simp [get, hsome, hkk, hk k hkk]
      · by_cases hkk : k = key
        · subst hkk
          simp [get, hv]
        · simp [get, hsome, hkk]
    · cases hl : t.lookup a <;> by_cases hkk : k = key <;>
        simp [get, hl, hkk, GoMap.lookup_insert_ite]
  · split
    · split
      · simp [ha]
      · split <;> simp [get, ha]
    · simp [get, ha]

end TransientStorage

end GethArb
