import Tfs.Db.ReadWriter

/-! Reading one key and reading several (`ReadData` and `MultiReadData` in `db/db_api.cpp`).

    `MultiReadData` copies its keys one by one into `db_keys_str` and takes a slice of every copy, a
    pointer and a length. A full vector moves its texts to a larger one. A long text stays where it is
    on the heap; a short one is kept inside the string object, and the slice taken of it goes on
    pointing at the old object, in memory that is given back. -/

namespace Tfs.Db

/-! ### The slices -/

/-- The longest text a string object keeps inside itself (libstdc++). -/
def localCapacity : ℕ := 15

/-- `db_keys_str` and `db_keys`: the capacity of the first, and for every slice of the second the text
    it was taken of and whether that text has since moved away from under it. -/
structure KeySlices where
  capacity : ℕ
  slices : List (Str × Bool)

/-- One round of the loop. A full vector moves to one of twice the capacity (libstdc++). -/
def KeySlices.pushBack (v : KeySlices) (key : Str) : KeySlices :=
  if v.slices.length < v.capacity then { v with slices := v.slices ++ [(key, false)] }
  else
    { capacity := max 1 (2 * v.capacity)
      slices := v.slices.map (fun slice => (slice.1, slice.2 || slice.1.length ≤ localCapacity))
        ++ [(key, false)] }

/-- The loop over the keys. -/
def keySlices (keys : List Str) : KeySlices := keys.foldl KeySlices.pushBack ⟨0, []⟩

/-- The bytes found where the object of a key's first copy was, by the key's position: whatever the
    memory holds once it is given back. -/
abbrev FreedMemory := ℕ → ℕ → UInt8

/-- The keys RocksDB is asked for: the text a slice points at. -/
def askedKeys (freed : FreedMemory) (keys : List Str) : List Str :=
  (keySlices keys).slices.zipIdx.map fun (slice, i) =>
    if slice.2 then (List.range slice.1.length).map (freed i) else slice.1

/-! ### The readers -/

/-- The two reading methods the getters are built on (virtual in `DBReader`, overridden in
    `DBReadWriter`): reading one key, and reading several. -/
structure Reads extends DBReader where
  multiReadData : List Str → DBStatus × List Str

/-- `DBReader::ReadData` over the given contents (`none`: the store is not open, or there is no
    transaction). -/
def dbReaderOf (contents : Option (StdMap Str Str)) : DBReader where
  lookup key := match contents with
    | none => .failed
    | some data => (data key).elim .notFound .found

/-- `DBReader::ReadData` and `DBReader::MultiReadData` over the given contents. A key that is not found
    leaves an empty value among the several. -/
def readsOf (freed : FreedMemory) (contents : Option (StdMap Str Str)) : Reads where
  toDBReader := dbReaderOf contents
  multiReadData keys :=
    if keys = [] then (.paramNull, [])
    else match contents with
      | none => (.error, [])
      | some data =>
        let asked := askedKeys freed keys
        (if asked.all fun key => (data key).isSome then .success else .notFound,
          asked.map fun key => (data key).getD [])

@[simp] theorem readsOf_toDBReader (freed : FreedMemory) (contents : Option (StdMap Str Str)) :
    (readsOf freed contents).toDBReader = dbReaderOf contents := rfl

/-- What a `DBReadWriter` reads: its transaction. -/
def RocksDBReadWriter.contents (w : RocksDBReadWriter) : Option (StdMap Str Str) :=
  if w.isInitSuccess then w.txn.map Txn.data else none

/-- `DBReadWriter::ReadData`. -/
def RocksDBReadWriter.dbReader (w : RocksDBReadWriter) : DBReader := dbReaderOf w.contents

/-- The methods of a `DBReadWriter`. -/
def RocksDBReadWriter.reads (freed : FreedMemory) (w : RocksDBReadWriter) : Reads :=
  readsOf freed w.contents

/-- The methods of a `DBReader` once the transaction is committed; `none` where there is nothing to
    commit. -/
def RocksDBReadWriter.committedReads (freed : FreedMemory) (w : RocksDBReadWriter) : Option Reads :=
  if w.isInitSuccess then w.txn.map fun txn => readsOf freed (some txn.data) else none

/-! ### Which slices hold -/

theorem keySlices_concat (keys : List Str) (key : Str) :
    keySlices (keys ++ [key]) = (keySlices keys).pushBack key := by
  rw [keySlices, List.foldl_concat, ← keySlices]

/-- A round keeps the texts and adds its own. -/
theorem KeySlices.pushBack_texts (v : KeySlices) (key : Str) :
    (v.pushBack key).slices.map Prod.fst = v.slices.map Prod.fst ++ [key] := by
  rw [KeySlices.pushBack]
  split <;> simp

theorem keySlices_texts (keys : List Str) : (keySlices keys).slices.map Prod.fst = keys := by
  induction keys using List.reverseRecOn with
  | nil => rfl
  | append_singleton keys key ih => rw [keySlices_concat, KeySlices.pushBack_texts, ih]

/-- Only a slice of a short text is left behind. -/
theorem short_of_moved {keys : List Str} :
    ∀ slice ∈ (keySlices keys).slices, slice.2 → slice.1.length ≤ localCapacity := by
  induction keys using List.reverseRecOn with
  | nil => nofun
  | append_singleton keys key ih =>
    intro slice hslice hmoved
    rw [keySlices_concat, KeySlices.pushBack] at hslice
    split at hslice
    · rcases List.mem_append.mp hslice with hold | hnew
      · exact ih slice hold hmoved
      · rw [List.mem_singleton.mp hnew] at hmoved
        cases hmoved
    · rcases List.mem_append.mp hslice with hold | hnew
      · obtain ⟨before, hbefore, rfl⟩ := List.mem_map.mp hold
        rcases (Bool.or_eq_true _ _).mp hmoved with hearlier | hshort
        · exact ih before hbefore hearlier
        · exact of_decide_eq_true hshort
      · rw [List.mem_singleton.mp hnew] at hmoved
        cases hmoved

/-- Every slice still points at its text. -/
def SlicesHold (keys : List Str) : Prop := ∀ slice ∈ (keySlices keys).slices, slice.2 = false

theorem slicesHold_of_long {keys : List Str} (h : ∀ key ∈ keys, localCapacity < key.length) :
    SlicesHold keys := by
  intro slice hslice
  by_contra hmoved
  have hshort := short_of_moved slice hslice (Bool.of_not_eq_false hmoved)
  have hkey : slice.1 ∈ keys := keySlices_texts keys ▸ List.mem_map_of_mem hslice
  exact absurd hshort (Nat.not_le.mpr (h _ hkey))

theorem slicesHold_of_length_le_one {keys : List Str} (h : keys.length ≤ 1) : SlicesHold keys := by
  match keys with
  | [] => nofun
  | [key] =>
    intro slice hslice
    rw [List.mem_singleton.mp (show slice ∈ [(key, false)] from hslice)]

/-- The slices that hold read the keys themselves. -/
theorem askedKeys_of_slicesHold {keys : List Str} (h : SlicesHold keys) (freed : FreedMemory) :
    askedKeys freed keys = keys := by
  have hread : askedKeys freed keys
      = (keySlices keys).slices.zipIdx.map fun entry => entry.1.1 := by
    refine List.map_congr_left fun entry hentry => ?_
    have hslice : entry.1 ∈ (keySlices keys).slices := List.fst_mem_of_mem_zipIdx hentry
    simp [h _ hslice]
  calc askedKeys freed keys
      = ((keySlices keys).slices.zipIdx.map Prod.fst).map Prod.fst := by
        rw [hread, List.map_map]
        rfl
    _ = keys := by rw [List.zipIdx_map_fst, keySlices_texts]

/-- Otherwise they read texts no longer than a string object holds. -/
theorem mem_askedKeys {freed : FreedMemory} {keys : List Str} {key : Str}
    (h : key ∈ askedKeys freed keys) : key ∈ keys ∨ key.length ≤ localCapacity := by
  obtain ⟨⟨slice, i⟩, hentry, rfl⟩ := List.mem_map.mp h
  have hslice : slice ∈ (keySlices keys).slices := List.fst_mem_of_mem_zipIdx hentry
  dsimp only
  split
  · rename_i hmoved
    right
    rw [List.length_map, List.length_range]
    exact short_of_moved slice hslice hmoved
  · left
    exact keySlices_texts keys ▸ List.mem_map_of_mem hslice

/-- Once left behind, the first slice stays so. -/
theorem KeySlices.head_pushBack {v : KeySlices} {first : Str}
    (h : v.slices.head? = some (first, true)) (key : Str) :
    (v.pushBack key).slices.head? = some (first, true) := by
  obtain ⟨rest, hslices⟩ := List.head?_eq_some_iff.mp h
  rw [KeySlices.pushBack]
  split <;> simp [hslices]

/-- A second key leaves a short first one behind. -/
theorem head_keySlices {first : Str} (h : first.length ≤ localCapacity) (second : Str) (keys : List Str) :
    (keySlices (first :: second :: keys)).slices.head? = some (first, true) := by
  induction keys using List.reverseRecOn with
  | nil => simp [keySlices, KeySlices.pushBack, h]
  | append_singleton keys key ih =>
    rw [← List.cons_append, ← List.cons_append, keySlices_concat]
    exact KeySlices.head_pushBack ih key

/-- Memory that shows a text wherever it is read. -/
def showing (text : Str) : FreedMemory := fun _ offset => text.getD offset 0

theorem map_showing (text : Str) (i : ℕ) :
    (List.range text.length).map (showing text i) = text := by
  refine List.ext_getElem (by simp) fun offset h _ => ?_
  have hlt : offset < text.length := by simpa using h
  simp [showing, List.getElem?_eq_getElem hlt]

/-- So the first of several keys, when it is short, is read from memory given back: RocksDB is asked for
    whatever text of its length is found there. -/
theorem mem_askedKeys_showing {first second text : Str} (h : first.length ≤ localCapacity)
    (hlen : first.length = text.length) (keys : List Str) :
    text ∈ askedKeys (showing text) (first :: second :: keys) := by
  obtain ⟨rest, hslices⟩ := List.head?_eq_some_iff.mp (head_keySlices h second keys)
  rw [askedKeys, hslices, List.zipIdx_cons, List.map_cons]
  refine List.mem_cons.mpr (.inl ?_)
  simp only [if_true]
  rw [hlen, map_showing]

/-! ### What the answers depend on -/

/-- What is read of a key depends on its contents only. -/
theorem readData_congr {data data' : StdMap Str Str} {key : Str} (h : data' key = data key) :
    (dbReaderOf (some data')).readData key = (dbReaderOf (some data)).readData key := by
  simp only [DBReader.readData, dbReaderOf, h]

/-- What is read of several depends on the contents of the keys asked for. -/
theorem multiReadData_congr_asked {data data' : StdMap Str Str} {freed : FreedMemory}
    {keys : List Str} (h : ∀ key ∈ askedKeys freed keys, data' key = data key) :
    (readsOf freed (some data')).multiReadData keys
      = (readsOf freed (some data)).multiReadData keys := by
  have hall : ((askedKeys freed keys).all fun key => (data' key).isSome)
      = (askedKeys freed keys).all fun key => (data key).isSome := by
    rw [Bool.eq_iff_iff, List.all_eq_true, List.all_eq_true]
    exact forall₂_congr fun key hkey => by rw [h key hkey]
  have hmap : ((askedKeys freed keys).map fun key => (data' key).getD [])
      = (askedKeys freed keys).map fun key => (data key).getD [] :=
    List.map_congr_left fun key hkey => by rw [h key hkey]
  simp only [readsOf, hall, hmap]

/-- That is of the keys, and where their slices do not hold of the short texts. -/
theorem multiReadData_congr {data data' : StdMap Str Str} (freed : FreedMemory) {keys : List Str}
    (h : ∀ key ∈ keys, data' key = data key)
    (hshort : SlicesHold keys ∨ ∀ key : Str, key.length ≤ localCapacity → data' key = data key) :
    (readsOf freed (some data')).multiReadData keys
      = (readsOf freed (some data)).multiReadData keys := by
  refine multiReadData_congr_asked fun key hkey => ?_
  rcases hshort with hhold | hshort
  · exact h key (askedKeys_of_slicesHold hhold freed ▸ hkey)
  · exact (mem_askedKeys hkey).elim (h key) (hshort key)

theorem contents_put (w : RocksDBReadWriter) (key : Str) (content : Option Str) :
    (w.put key content).contents
      = w.contents.map fun data => Function.update data key content := by
  cases hi : w.isInitSuccess <;> cases ht : w.txn <;>
    simp [RocksDBReadWriter.contents, RocksDBReadWriter.put, hi, ht]

/-- A `DBReader` after the commit reads what the writer read. -/
theorem committedReads_eq (freed : FreedMemory) (w : RocksDBReadWriter) :
    w.committedReads freed = w.contents.map fun data => readsOf freed (some data) := by
  cases hi : w.isInitSuccess <;> cases ht : w.txn <;>
    simp [RocksDBReadWriter.committedReads, RocksDBReadWriter.contents, hi, ht]

end Tfs.Db
