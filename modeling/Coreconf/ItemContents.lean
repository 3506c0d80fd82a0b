import Coreconf.Items

set_option autoImplicit false

/- Conditions on every value of an item, and when the value the decoder builds has the
content of the item. -/
namespace Cbor.Item

open Coreconf (CoreconfValueT Tree)

mutual

/-- The item and all the values in it satisfy the predicate; keys are not asked. -/
def Each (p : Item → Prop) : Item → Prop
  | list framing items => p (list framing items) ∧ EachItems p items
  | map framing entries => p (map framing entries) ∧ EachEntries p entries
  | item => p item

def EachItems (p : Item → Prop) : List Item → Prop
  | [] => True
  | item :: rest => Each p item ∧ EachItems p rest

def EachEntries (p : Item → Prop) : List (Item × Item) → Prop
  | [] => True
  | (_, item) :: rest => Each p item ∧ EachEntries p rest

end

variable {p q : Item → Prop} {item : Item}

theorem eachItems_iff {items : List Item} : EachItems p items ↔ ∀ item ∈ items, Each p item := by
  induction items with
  | nil => simp [EachItems]
  | cons item rest ih => simp [EachItems, ih]

theorem eachEntries_iff {entries : List (Item × Item)} :
    EachEntries p entries ↔ ∀ entry ∈ entries, Each p entry.2 := by
  induction entries with
  | nil => simp [EachEntries]
  | cons entry rest ih => simp [EachEntries, ih]

theorem each_list {framing : Framing} {items : List Item} :
    Each p (.list framing items) ↔ p (.list framing items) ∧ ∀ item ∈ items, Each p item := by
  rw [Each, eachItems_iff]

theorem each_map {framing : Framing} {entries : List (Item × Item)} :
    Each p (.map framing entries) ↔ p (.map framing entries) ∧ ∀ entry ∈ entries, Each p entry.2 := by
  rw [Each, eachEntries_iff]

theorem Each.imp (step : ∀ item, p item → q item) (each : Each p item) : Each q item := by
  induction item with
  | list framing items ih =>
      obtain ⟨here, inside⟩ := each_list.mp each
      exact each_list.mpr ⟨step _ here, fun item member => ih item member (inside item member)⟩
  | map framing entries ih =>
      obtain ⟨here, inside⟩ := each_map.mp each
      exact each_map.mpr ⟨step _ here, fun entry member => (ih entry member).2 (inside entry member)⟩
  | _ => exact step _ each

/-- No map has a key twice. -/
def DistinctKeys (item : Item) : Prop :=
  item.Each fun
    | map _ entries => (entries.map fun entry => entry.1.sid?).Nodup
    | _ => True

/-- No string has a NUL in it. -/
def NulFree (item : Item) : Prop :=
  item.Each fun
    | tstr _ bytes => (0 : UInt8) ∉ bytes
    | bstr _ bytes => (0 : UInt8) ∉ bytes
    | tstrChunks chunks => (0 : UInt8) ∉ chunks.flatMap Prod.snd
    | _ => True

end Cbor.Item

namespace Coreconf

/-- The precision that `snprintf` gets for a text is its length, or is negative and then
ignored: so for every text shorter than 2^31 bytes. -/
def KeptLength (length : Nat) : Prop := length < 2 ^ 31 ∨ 2 ^ 31 ≤ length % 2 ^ 32

instance (length : Nat) : Decidable (KeptLength length) := inferInstanceAs (Decidable (_ ∨ _))

theorem precision_eq (length : Nat) :
    (Int32.ofNat length).toInt =
      if length % 2 ^ 32 < 2 ^ 31 then (length : Int) % 2 ^ 32 else (length : Int) % 2 ^ 32 - 2 ^ 32 := by
  rw [Int32.toInt_ofNat', Int.bmod_def]
  simp only [Int32.size]
  split_ifs <;> omega

/-- A text without NUL is copied as it is exactly where its length is kept. -/
theorem formatTextString_kept {bytes : List UInt8} (noNul : (0 : UInt8) ∉ bytes) :
    (formatTextString bytes).bytes = bytes ↔ KeptLength bytes.length := by
  have whole : ∀ part, part <+: bytes → (CString.ofBuffer part).bytes = part := by
    intro part isPart
    rw [ofBuffer_noNul fun member => noNul (isPart.subset member)]
  rw [formatTextString, precision_eq, KeptLength]
  split_ifs with small negative negative
  · omega
  · rw [whole _ (List.take_prefix _ _), List.take_eq_self_iff]
    omega
  · simp only [whole _ (List.prefix_refl _), true_iff]
    omega
  · omega

theorem formatTextString_whole {bytes : List UInt8} :
    (formatTextString bytes).bytes = bytes ↔ KeptLength bytes.length ∧ (0 : UInt8) ∉ bytes := by
  constructor
  · intro whole
    have noNul : (0 : UInt8) ∉ bytes := whole ▸ (formatTextString bytes).noNul
    exact ⟨(formatTextString_kept noNul).mp whole, noNul⟩
  · rintro ⟨kept, noNul⟩
    exact (formatTextString_kept noNul).mpr kept

theorem ofBuffer_whole {bytes : List UInt8} : (CString.ofBuffer bytes).bytes = bytes ↔ (0 : UInt8) ∉ bytes := by
  constructor
  · intro whole
    exact whole ▸ (CString.ofBuffer bytes).noNul
  · intro noNul
    rw [ofBuffer_noNul noNul]

end Coreconf

namespace Cbor.Item

open Coreconf (CoreconfValueT Tree KeptLength)

/-- No text is cut short when it is copied. -/
def KeepsTexts (item : Item) : Prop :=
  item.Each fun
    | tstr _ bytes => KeptLength bytes.length
    | _ => True

theorem keepsTexts_list {framing : Framing} {items : List Item} :
    KeepsTexts (.list framing items) ↔ ∀ item ∈ items, item.KeepsTexts :=
  each_list.trans (and_iff_right trivial)

theorem keepsTexts_map {framing : Framing} {entries : List (Item × Item)} :
    KeepsTexts (.map framing entries) ↔ ∀ entry ∈ entries, entry.2.KeepsTexts :=
  each_map.trans (and_iff_right trivial)

theorem nulFree_list {framing : Framing} {items : List Item} :
    NulFree (.list framing items) ↔ ∀ item ∈ items, item.NulFree :=
  each_list.trans (and_iff_right trivial)

theorem nulFree_map {framing : Framing} {entries : List (Item × Item)} :
    NulFree (.map framing entries) ↔ ∀ entry ∈ entries, entry.2.NulFree :=
  each_map.trans (and_iff_right trivial)

theorem length_encode_items {item : Item} {items : List Item} (member : item ∈ items) :
    item.encode.length ≤ (encodeItems items).length := by
  obtain ⟨before, later, rfl⟩ := List.append_of_mem member
  simp only [encodeItems_append, encodeItems, List.length_append]
  omega

theorem length_encode_entries {entry : Item × Item} {entries : List (Item × Item)}
    (member : entry ∈ entries) : entry.2.encode.length ≤ (encodeEntries entries).length := by
  obtain ⟨before, later, rfl⟩ := List.append_of_mem member
  simp only [encodeEntries_append, encodeEntries, List.length_append]
  omega

/-- No text in less than 2^31 bytes is cut. -/
theorem keepsTexts_of_length {item : Item} (short : item.encode.length < 2 ^ 31) : item.KeepsTexts := by
  induction item with
  | tstr w bytes =>
      rw [encode, string, List.length_append] at short
      exact Or.inl (show bytes.length < 2 ^ 31 by omega)
  | list framing items ih =>
      rw [encode, List.length_append, List.length_append] at short
      refine keepsTexts_list.mpr fun item member => ih item member ?_
      have shorter := length_encode_items member
      omega
  | map framing entries ih =>
      rw [encode, List.length_append, List.length_append] at short
      refine keepsTexts_map.mpr fun entry member => (ih entry member).2 ?_
      have shorter := length_encode_entries member
      omega
  | _ => trivial

/-- The value the decoder builds for the item has the content of the item. -/
def KeepsContent (item : Item) : Prop :=
  ∀ value, item.value? = some value → item.tree? = some value.toTree

/-- The values of a list have the content of its items where each has. -/
private theorem trees?_iff {items : List Item} {values : List CoreconfValueT}
    (read : values? items = some values) :
    trees? items = some (values.map CoreconfValueT.toTree) ↔ ∀ item ∈ items, item.KeepsContent := by
  induction items generalizing values with
  | nil =>
      cases read
      simp [trees?]
  | cons item rest ih =>
      rw [values?] at read
      split at read
      · rename_i value later found foundLater
        cases read
        have first : item.KeepsContent ↔ item.tree? = some value.toTree := by
          simp [KeepsContent, found]
        rw [List.forall_mem_cons, first, ← ih foundLater, trees?, List.map_cons]
        constructor
        · intro same
          split at same
          · rename_i tree trees here there
            cases same
            exact ⟨here, there⟩
          · cases same
        · intro same
          rw [same.1, same.2]
      · cases read

/-- The bindings of a map have the content of its entries where each value has. -/
private theorem bindings?_iff {entries : List (Item × Item)} {members : List (UInt64 × CoreconfValueT)}
    (read : members? entries = some members) :
    bindings? entries = some (members.map fun member => (member.1.toNat, member.2.toTree)) ↔
      ∀ entry ∈ entries, entry.2.KeepsContent := by
  induction entries generalizing members with
  | nil =>
      cases read
      simp [bindings?]
  | cons entry rest ih =>
      obtain ⟨key, item⟩ := entry
      rw [members?] at read
      split at read
      · rename_i sid value later keyed found foundLater
        cases read
        have first : item.KeepsContent ↔ item.tree? = some value.toTree := by
          simp [KeepsContent, found]
        rw [List.forall_mem_cons, first, ← ih foundLater, bindings?, List.map_cons]
        constructor
        · intro same
          split at same
          · rename_i sid' tree bindings keyed' here there
            cases keyed.symm.trans keyed'
            cases same
            exact ⟨here, there⟩
          · cases same
        · intro same
          rw [keyed, same.1, same.2]
      · cases read

/-- The keys of the members that are read are those of the entries. -/
theorem members?_keys {entries : List (Item × Item)} {members : List (UInt64 × CoreconfValueT)}
    (read : members? entries = some members) :
    entries.map (fun entry => entry.1.sid?) = members.map fun member => some member.1 := by
  induction entries generalizing members with
  | nil =>
      cases read
      rfl
  | cons entry rest ih =>
      obtain ⟨key, item⟩ := entry
      rw [members?] at read
      split at read
      · rename_i sid value later keyed found foundLater
        cases read
        rw [List.map_cons, List.map_cons, ih foundLater, keyed]
      · cases read

theorem members?_distinct {entries : List (Item × Item)} {members : List (UInt64 × CoreconfValueT)}
    (read : members? entries = some members) (distinct : (entries.map fun entry => entry.1.sid?).Nodup) :
    (members.map Prod.fst).Nodup := by
  have keys : entries.map (fun entry => entry.1.sid?) = (members.map Prod.fst).map some := by
    rw [members?_keys read, List.map_map]
    rfl
  rw [keys] at distinct
  exact distinct.of_map _

theorem DistinctKeys.entries {framing : Framing} {entries : List (Item × Item)}
    (distinct : DistinctKeys (.map framing entries)) : (entries.map fun entry => entry.1.sid?).Nodup :=
  (each_map.mp distinct).1

theorem bindings?_keys {entries : List (Item × Item)} {bindings : List (Nat × Tree)}
    (read : bindings? entries = some bindings) :
    entries.map (fun entry => entry.1.sid?.map UInt64.toNat) = bindings.map fun binding => some binding.1 := by
  induction entries generalizing bindings with
  | nil =>
      cases read
      rfl
  | cons entry rest ih =>
      obtain ⟨key, item⟩ := entry
      rw [bindings?] at read
      split at read
      · rename_i sid tree later keyed found foundLater
        cases read
        rw [List.map_cons, List.map_cons, ih foundLater, keyed]
        rfl
      · cases read

/-- The decoder's value is the value of the item if its strings survive. -/
theorem tree?_of_keeps {item : Item} {value : CoreconfValueT} (read : item.value? = some value)
    (wellFormed : item.WellFormed) (keeps : item.KeepsTexts) (free : item.NulFree) :
    item.tree? = some value.toTree := by
  induction item generalizing value with
  | uint w n =>
      cases wellFormed with
      | uint fits =>
          cases read
          have small := fits.trans_le w.bound_le
          simp [tree?, CoreconfValueT.toTree, UInt64.toNat_ofNat_of_lt' small]
  | nint w n =>
      simp only [value?, Option.ite_none_right_eq_some, Option.some.injEq] at read
      obtain ⟨small, rfl⟩ := read
      simp only [tree?, small, ↓reduceIte, CoreconfValueT.toTree, Coreconf.flipped_toInt small]
  | bstr w bytes =>
      cases read
      simp only [tree?, CoreconfValueT.toTree, Coreconf.ofBuffer_whole.mpr free]
  | tstr w bytes =>
      cases read
      simp only [tree?, CoreconfValueT.toTree, Coreconf.formatTextString_whole.mpr ⟨keeps, free⟩]
  | bstrChunks chunks => cases read
  | tstrChunks chunks => cases read
  | tag w n item ih => cases read
  | primitive w n => exact simpleTree?_of_value read
  | list framing items ih =>
      obtain ⟨values, every, rfl⟩ := Option.map_eq_some_iff.mp read
      cases wellFormed with
      | list fits formed =>
          have same := (trees?_iff every).mpr fun item member value found => ih item member found
            (formed item member) (keepsTexts_list.mp keeps item member) (nulFree_list.mp free item member)
          rw [Coreconf.CoreconfHashMapT.toTree_array, tree?, same, Option.map_some]
  | map framing entries ih =>
      rw [value?] at read
      split at read
      · cases read
      · obtain ⟨members, every, rfl⟩ := Option.map_eq_some_iff.mp read
        have length := members?_length every
        cases wellFormed with
        | map fits formedKeys formed =>
            have same := (bindings?_iff every).mpr fun entry member value found => (ih entry member).2 found
              (formed entry member) (keepsTexts_map.mp keeps entry member)
              (nulFree_map.mp free entry member)
            rw [Coreconf.CoreconfHashMapT.toTree_hashmap, Coreconf.insertMembers_create (by omega), tree?,
              same, Option.map_some]

private theorem textualItems_iff {items : List Item} :
    TextualItems items ↔ ∀ item ∈ items, item.Textual := by
  induction items with
  | nil => simp [TextualItems]
  | cons item rest ih => simp [TextualItems, ih]

private theorem textualEntries_iff {entries : List (Item × Item)} :
    TextualEntries entries ↔ ∀ entry ∈ entries, entry.2.Textual := by
  induction entries with
  | nil => simp [TextualEntries]
  | cons entry rest ih => simp [TextualEntries, ih]

theorem Textual.survives {item : Item} {value : CoreconfValueT} (textual : item.Textual)
    (read : item.value? = some value) : item.KeepsTexts ∧ item.NulFree := by
  induction item generalizing value with
  | tstr w bytes => exact ⟨Or.inl textual.2, textual.1⟩
  | bstr w bytes => exact ⟨trivial, textual⟩
  | bstrChunks chunks => cases read
  | tstrChunks chunks => cases read
  | list framing items ih =>
      obtain ⟨values, every, -⟩ := Option.map_eq_some_iff.mp read
      have inside : ∀ item ∈ items, item.KeepsTexts ∧ item.NulFree := by
        intro item member
        obtain ⟨value, found⟩ := mem_values? every member
        exact ih item member (textualItems_iff.mp textual item member) found
      exact ⟨keepsTexts_list.mpr fun item member => (inside item member).1,
        nulFree_list.mpr fun item member => (inside item member).2⟩
  | map framing entries ih =>
      rw [value?] at read
      split at read
      · cases read
      · obtain ⟨members, every, -⟩ := Option.map_eq_some_iff.mp read
        have inside : ∀ entry ∈ entries, entry.2.KeepsTexts ∧ entry.2.NulFree := by
          intro entry member
          obtain ⟨sid, value, -, found, -⟩ := mem_members? every member
          exact (ih entry member).2 (textualEntries_iff.mp textual entry member) found
        exact ⟨keepsTexts_map.mpr fun entry member => (inside entry member).1,
          nulFree_map.mpr fun entry member => (inside entry member).2⟩
  | _ => exact ⟨trivial, trivial⟩

theorem tree?_of_value {item : Item} {value : CoreconfValueT} (read : item.value? = some value)
    (wellFormed : item.WellFormed) (textual : item.Textual) : item.tree? = some value.toTree :=
  tree?_of_keeps read wellFormed (textual.survives read).1 (textual.survives read).2

theorem bindings?_distinct {entries : List (Item × Item)} {bindings : List (Nat × Tree)}
    (found : bindings? entries = some bindings)
    (distinct : (entries.map fun entry => entry.1.sid?).Nodup) : (bindings.map Prod.fst).Nodup := by
  have keys := bindings?_keys found
  have once := distinct.map (Option.map_injective fun a b => UInt64.toNat_inj.mp)
  rw [List.map_map] at once
  rw [show entries.map (Option.map UInt64.toNat ∘ fun entry => entry.1.sid?) = (bindings.map Prod.fst).map some by
    rw [List.map_map]
    exact keys] at once
  exact once.of_map _

theorem mem_bindings? {entries : List (Item × Item)} {bindings : List (Nat × Tree)}
    (found : bindings? entries = some bindings) {entry : Item × Item} (member : entry ∈ entries) :
    ∃ sid tree, entry.1.sid? = some sid ∧ entry.2.tree? = some tree ∧ (sid.toNat, tree) ∈ bindings := by
  induction entries generalizing bindings with
  | nil => cases member
  | cons first rest ih =>
      obtain ⟨key, item⟩ := first
      rw [bindings?] at found
      split at found
      · rename_i sid tree later keyed here there
        cases found
        rcases List.mem_cons.mp member with rfl | member
        · exact ⟨sid, tree, keyed, here, List.mem_cons_self⟩
        · obtain ⟨sid, tree, keyed, here, inside⟩ := ih there member
          exact ⟨sid, tree, keyed, here, List.mem_cons_of_mem _ inside⟩
      · cases found

theorem mem_trees? {items : List Item} {trees : List Tree} (found : trees? items = some trees)
    {item : Item} (member : item ∈ items) : ∃ tree ∈ trees, item.tree? = some tree := by
  induction items generalizing trees with
  | nil => cases member
  | cons first rest ih =>
      rw [trees?] at found
      split at found
      · rename_i tree later here there
        cases found
        rcases List.mem_cons.mp member with rfl | member
        · exact ⟨tree, List.mem_cons_self, here⟩
        · obtain ⟨tree, inside, here⟩ := ih there member
          exact ⟨tree, List.mem_cons_of_mem _ inside, here⟩
      · cases found

theorem values?_isSome {items : List Item} (each : ∀ item ∈ items, item.value?.isSome) :
    (values? items).isSome := by
  induction items with
  | nil => rfl
  | cons item rest ih =>
      obtain ⟨first, others⟩ := List.forall_mem_cons.mp each
      obtain ⟨value, found⟩ := Option.isSome_iff_exists.mp first
      obtain ⟨values, foundOthers⟩ := Option.isSome_iff_exists.mp (ih others)
      simp [values?, found, foundOthers]

theorem members?_isSome {entries : List (Item × Item)} (keys : ∀ entry ∈ entries, entry.1.sid?.isSome)
    (each : ∀ entry ∈ entries, entry.2.value?.isSome) : (members? entries).isSome := by
  induction entries with
  | nil => rfl
  | cons entry rest ih =>
      obtain ⟨keyed, otherKeys⟩ := List.forall_mem_cons.mp keys
      obtain ⟨first, others⟩ := List.forall_mem_cons.mp each
      obtain ⟨sid, keyed⟩ := Option.isSome_iff_exists.mp keyed
      obtain ⟨value, found⟩ := Option.isSome_iff_exists.mp first
      obtain ⟨members, foundOthers⟩ := Option.isSome_iff_exists.mp (ih otherKeys others)
      simp [members?, keyed, found, foundOthers]

theorem simpleValue?_of_tree {w : Width} {n : Nat} {tree : Tree} (shown : simpleTree? w n = some tree) :
    (simpleValue? w n).isSome := by
  unfold simpleTree? at shown
  split at shown <;> cases shown <;> rfl

/-- The bindings of a map with distinct keys are those of the members that are read. -/
private theorem bindings?_members {entries : List (Item × Item)} {members : List (UInt64 × CoreconfValueT)}
    {bindings : List (Nat × Tree)} (read : members? entries = some members)
    (distinct : (entries.map fun entry => entry.1.sid?).Nodup) (found : bindings? entries = some bindings)
    (same : FinMap.ofList bindings =
      FinMap.ofList (members.map fun member => (member.1.toNat, member.2.toTree))) :
    bindings = members.map fun member => (member.1.toNat, member.2.toTree) := by
  have sids := bindings?_keys found
  have natKeys := congrArg (List.map (Option.map UInt64.toNat)) (members?_keys read)
  have sameKeys : bindings.map Prod.fst =
      (members.map fun member => (member.1.toNat, member.2.toTree)).map Prod.fst := by
    apply List.map_injective_iff.mpr (Option.some_injective Nat)
    rw [List.map_map, List.map_map] at natKeys
    rw [List.map_map, List.map_map, List.map_map]
    exact sids.symm.trans natKeys
  exact FinMap.ofList_inj sameKeys (bindings?_distinct found distinct) same

/-- The decoder's value has the content of an item without duplicate keys exactly where
no text is cut and no string has a NUL. -/
theorem tree?_iff_survives {item : Item} {value : CoreconfValueT} (read : item.value? = some value)
    (wellFormed : item.WellFormed) (distinct : item.DistinctKeys) :
    item.tree? = some value.toTree ↔ item.KeepsTexts ∧ item.NulFree := by
  refine ⟨fun same => ?_, fun keeps => tree?_of_keeps read wellFormed keeps.1 keeps.2⟩
  induction item generalizing value with
  | bstr w bytes =>
      cases read
      simp only [tree?, CoreconfValueT.toTree, Option.some.injEq, Tree.str.injEq] at same
      exact ⟨trivial, Coreconf.ofBuffer_whole.mp same.symm⟩
  | tstr w bytes =>
      cases read
      simp only [tree?, CoreconfValueT.toTree, Option.some.injEq, Tree.str.injEq] at same
      exact Coreconf.formatTextString_whole.mp same.symm
  | bstrChunks chunks => cases read
  | tstrChunks chunks => cases read
  | tag w n item ih => cases read
  | list framing items ih =>
      obtain ⟨values, every, rfl⟩ := Option.map_eq_some_iff.mp read
      rw [Coreconf.CoreconfHashMapT.toTree_array, tree?] at same
      obtain ⟨trees, found, equal⟩ := Option.map_eq_some_iff.mp same
      cases equal
      have each := (trees?_iff every).mp found
      cases wellFormed with
      | list fits formed =>
          have inside : ∀ item ∈ items, item.KeepsTexts ∧ item.NulFree := by
            intro item member
            obtain ⟨value, read⟩ := mem_values? every member
            exact ih item member read (formed item member) ((each_list.mp distinct).2 item member)
              (each item member value read)
          exact ⟨keepsTexts_list.mpr fun item member => (inside item member).1,
            nulFree_list.mpr fun item member => (inside item member).2⟩
  | map framing entries ih =>
      rw [value?] at read
      split at read
      · cases read
      · obtain ⟨members, every, rfl⟩ := Option.map_eq_some_iff.mp read
        have length := members?_length every
        rw [Coreconf.CoreconfHashMapT.toTree_hashmap, Coreconf.insertMembers_create (by omega), tree?] at same
        obtain ⟨bindings, found, equal⟩ := Option.map_eq_some_iff.mp same
        obtain rfl := bindings?_members every distinct.entries found (Tree.map.inj equal)
        have each := (bindings?_iff every).mp found
        cases wellFormed with
        | map fits formedKeys formed =>
            have inside : ∀ entry ∈ entries, entry.2.KeepsTexts ∧ entry.2.NulFree := by
              intro entry member
              obtain ⟨sid, value, -, read, -⟩ := mem_members? every member
              exact (ih entry member).2 read (formed entry member) ((each_map.mp distinct).2 entry member)
                (each entry member value read)
            exact ⟨keepsTexts_map.mpr fun entry member => (inside entry member).1,
              nulFree_map.mpr fun entry member => (inside entry member).2⟩
  | _ => exact ⟨trivial, trivial⟩

end Cbor.Item
