import Coreconf.Cbor
import Coreconf.Decoder
import Coreconf.Tree

set_option autoImplicit false

/- What a CBOR item says in this data model, and the value the decoder builds for it.
The two differ in a string with a NUL. -/
namespace Coreconf

/-- The entries inserted one after the other. -/
def insertMembers (members : List (UInt64 × CoreconfValueT))
    (map : CoreconfHashMapT CoreconfValueT) : CoreconfHashMapT CoreconfValueT :=
  members.foldl (fun map member => storeMember map member.1 (some member.2)) map

/-- A value whose integers are all of the widest type, as the decoder reads them. -/
inductive CoreconfValueT.Widest : CoreconfValueT → Prop
  | array {elements} (each : ∀ element ∈ elements, Widest element) : Widest (.array elements)
  | hashmap {map : CoreconfHashMapT CoreconfValueT}
      (each : ∀ object ∈ map.objects, ∀ value, object.value = some value → Widest value) :
      Widest (.hashmap map)
  | string (s) : Widest (.string s)
  | real (bits) : Widest (.real bits)
  | uint64 (u) : Widest (.uint64 u)
  | int64 {i : Int64} (negative : i < 0) : Widest (.int64 i)
  | true : Widest .true
  | false : Widest .false
  | null : Widest .null

end Coreconf

namespace Cbor.Item

open Coreconf (CoreconfValueT CString Tree createCoreconfHashmap formatTextString insertMembers)

/-- The SID of a key, which is an unsigned integer. -/
def sid? : Item → Option UInt64
  | uint _ n => some (UInt64.ofNat n)
  | _ => none

/-- The most entries the map loop goes round for. -/
def maxEntries : Nat := Coreconf.CORECONF_MAX_LOOP + 1

def simpleValue? : Width → Nat → Option CoreconfValueT
  | .immediate, 20 => some .false
  | .immediate, 21 => some .true
  | .immediate, 22 => some .null
  | .eight, bits => some (.real (UInt64.ofNat bits))
  | _, _ => none

mutual

/-- The value the decoder builds for the item when it reads all of it. -/
def value? : Item → Option CoreconfValueT
  | uint _ n => some (.uint64 (UInt64.ofNat n))
  | nint _ n => if n < 2 ^ 63 then some (.int64 (~~~ UInt64.ofNat n).toInt64) else none
  | bstr _ bytes => some (.string (CString.ofBuffer bytes))
  | tstr _ bytes => some (.string (formatTextString bytes))
  | list _ items => (values? items).map .array
  | map _ entries =>
      if entries.length > maxEntries then none
      else (members? entries).map fun members => .hashmap (insertMembers members createCoreconfHashmap)
  | primitive w n => simpleValue? w n
  | _ => none

def values? : List Item → Option (List CoreconfValueT)
  | [] => some []
  | item :: rest =>
      match value? item, values? rest with
      | some value, some values => some (value :: values)
      | _, _ => none

def members? : List (Item × Item) → Option (List (UInt64 × CoreconfValueT))
  | [] => some []
  | (key, item) :: rest =>
      match sid? key, value? item, members? rest with
      | some sid, some value, some members => some ((sid, value) :: members)
      | _, _, _ => none

end

def simpleTree? : Width → Nat → Option Tree
  | .immediate, 20 => some (.bool false)
  | .immediate, 21 => some (.bool true)
  | .immediate, 22 => some .null
  | .eight, bits => some (.real (UInt64.ofNat bits))
  | _, _ => none

mutual

/-- The value of the item itself, of any size; a later duplicate key overrides. -/
def tree? : Item → Option Tree
  | uint _ n => some (.int n)
  | nint _ n => if n < 2 ^ 63 then some (.int (-1 - n)) else none
  | bstr _ bytes => some (.str bytes)
  | tstr _ bytes => some (.str bytes)
  | list _ items => (trees? items).map .list
  | map _ entries => (bindings? entries).map fun bindings => .map (FinMap.ofList bindings)
  | primitive w n => simpleTree? w n
  | _ => none

def trees? : List Item → Option (List Tree)
  | [] => some []
  | item :: rest =>
      match tree? item, trees? rest with
      | some tree, some trees => some (tree :: trees)
      | _, _ => none

def bindings? : List (Item × Item) → Option (List (Nat × Tree))
  | [] => some []
  | (key, item) :: rest =>
      match sid? key, tree? item, bindings? rest with
      | some sid, some tree, some bindings => some ((sid.toNat, tree) :: bindings)
      | _, _, _ => none

end

mutual

/-- Every string is one that a C string can hold and `snprintf` can copy. -/
def Textual : Item → Prop
  | bstr _ bytes => (0 : UInt8) ∉ bytes
  | tstr _ bytes => (0 : UInt8) ∉ bytes ∧ bytes.length < 2 ^ 31
  | list _ items => TextualItems items
  | map _ entries => TextualEntries entries
  | _ => True

def TextualItems : List Item → Prop
  | [] => True
  | item :: rest => Textual item ∧ TextualItems rest

def TextualEntries : List (Item × Item) → Prop
  | [] => True
  | (_, item) :: rest => Textual item ∧ TextualEntries rest

end

mutual

/-- How many levels below the item's own the decoder goes for it. -/
def levels : Item → Nat
  | list _ items => levelsItems items
  | map _ entries => levelsEntries entries
  | _ => 0

def levelsItems : List Item → Nat
  | [] => 0
  | item :: rest => max (levels item + 1) (levelsItems rest)

def levelsEntries : List (Item × Item) → Nat
  | [] => 0
  | (_, item) :: rest => max (levels item + 1) (levelsEntries rest)

end

end Cbor.Item

namespace Coreconf

open Cbor (Item Width)

variable {map : CoreconfHashMapT CoreconfValueT}

theorem formatTextString_bytes {bytes : List UInt8} (noNul : (0 : UInt8) ∉ bytes)
    (short : bytes.length < 2 ^ 31) : formatTextString bytes = ⟨bytes, noNul⟩ := by
  have positive : (Int32.ofNat bytes.length).toInt = bytes.length := by
    rw [Int32.toInt_ofNat']
    exact Int.bmod_eq_of_le (by simp only [Int32.size]; omega) (by simp only [Int32.size]; omega)
  simp only [formatTextString, positive, Int.toNat_natCast, List.take_length, ite_self]
  exact CString.ofBuffer_bytes ⟨bytes, noNul⟩

theorem ofBuffer_noNul {bytes : List UInt8} (noNul : (0 : UInt8) ∉ bytes) :
    CString.ofBuffer bytes = ⟨bytes, noNul⟩ :=
  CString.ofBuffer_bytes ⟨bytes, noNul⟩

/-- A negative integer is the flipped bits of its argument. -/
theorem flipped_toInt {n : Nat} (small : n < 2 ^ 63) :
    (~~~ UInt64.ofNat n).toInt64.toInt = -1 - (n : Int) := by
  have bits : (~~~ UInt64.ofNat n).toInt64 = Int64.ofBitVec (~~~ BitVec.ofNat 64 n) := rfl
  have inRange := Int.bmod_eq_of_le (n := -1 - (n : Int)) (m := 2 ^ 64) (by omega) (by omega)
  rw [bits, Int64.toInt_ofBitVec, BitVec.toInt_not, BitVec.toNat_ofNat, Nat.mod_eq_of_lt (by omega),
    show ((2 : Int) ^ 64 - 1 - n) = (-1 - (n : Int)) + (2 ^ 64 : Nat) by push_cast; ring,
    Int.add_bmod_right, inRange]

theorem insertMembers_cons (key : UInt64) (value : CoreconfValueT)
    (members : List (UInt64 × CoreconfValueT)) (map : CoreconfHashMapT CoreconfValueT) :
    insertMembers ((key, value) :: members) map =
      insertMembers members (insertCoreconfHashMap map key (some value)).2 := rfl

theorem insertMembers_concat (members : List (UInt64 × CoreconfValueT)) (key : UInt64)
    (value : CoreconfValueT) (map : CoreconfHashMapT CoreconfValueT) :
    insertMembers (members ++ [(key, value)]) map = storeMember (insertMembers members map) key (some value) :=
  List.foldl_append

/-- Into a map with room for one object more the insertion succeeds, and leaves room for the rest. -/
theorem insert_of_few (inv : map.RepInv) {more : Nat} (few : map.size + (more + 1) ≤ Item.maxEntries)
    (key : UInt64) (value : CoreconfValueT) :
    (insertCoreconfHashMap map key (some value)).1 = 0 ∧
      (insertCoreconfHashMap map key (some value)).2.size + more ≤ Item.maxEntries := by
  have short := (inv.chain_length_le key).trans (show map.size ≤ CORECONF_MAX_LOOP + 1 from by
    simp only [Item.maxEntries] at few
    omega)
  have grown := insertCoreconfHashMap_size_le map key (some value)
  exact ⟨insertCoreconfHashMap_short short, by omega⟩

/-- In a map of few objects every insertion succeeds. -/
theorem insertMembers_content (inv : map.RepInv) {members : List (UInt64 × CoreconfValueT)}
    (few : map.size + members.length ≤ Item.maxEntries) :
    (insertMembers members map).content =
      members.foldl (fun m member => FinMap.insert member.1.toNat member.2.toTree m) map.content := by
  induction members generalizing map with
  | nil => rfl
  | cons member rest ih =>
      obtain ⟨key, value⟩ := member
      obtain ⟨inserted, room⟩ := insert_of_few inv few key value
      rw [insertMembers_cons, ih (inv.insert key value) room, inv.content_insert inserted, List.foldl_cons]

/-- Distinct keys are the objects of a map of few in the end, beside the objects of
other keys from before. -/
theorem mem_insertMembers (inv : map.RepInv) {members : List (UInt64 × CoreconfValueT)}
    (distinct : (members.map Prod.fst).Nodup) (few : map.size + members.length ≤ Item.maxEntries)
    {object : CoreconfObjectT CoreconfValueT} :
    object ∈ (insertMembers members map).objects ↔
      (∃ member ∈ members, object = ⟨member.1, some member.2⟩) ∨
        (object ∈ map.objects ∧ ∀ member ∈ members, object.key ≠ member.1) := by
  induction members generalizing map with
  | nil => simp [insertMembers]
  | cons member rest ih =>
      obtain ⟨key, value⟩ := member
      obtain ⟨inserted, room⟩ := insert_of_few inv few key value
      rw [List.map_cons, List.nodup_cons] at distinct
      rw [insertMembers_cons, ih (inv.insert key value) distinct.2 room, inv.mem_insert inserted]
      simp only [List.exists_mem_cons_iff, List.forall_mem_cons]
      constructor
      · rintro (later | ⟨rfl | ⟨before, other⟩, others⟩)
        · exact Or.inl (Or.inr later)
        · exact Or.inl (Or.inl rfl)
        · exact Or.inr ⟨before, other, others⟩
      · rintro ((rfl | later) | ⟨before, other, others⟩)
        · refine Or.inr ⟨Or.inl rfl, fun member inside same => distinct.1 ?_⟩
          exact List.mem_map.mpr ⟨member, inside, same.symm⟩
        · exact Or.inl later
        · exact Or.inr ⟨Or.inr ⟨before, other⟩, others⟩

theorem insertMembers_repInv (inv : map.RepInv) (members : List (UInt64 × CoreconfValueT)) :
    (insertMembers members map).RepInv := by
  induction members generalizing map with
  | nil => exact inv
  | cons member rest ih => exact ih (inv.insert member.1 member.2)

theorem insertMembers_valid (valid : CoreconfValueT.Valid (.hashmap map))
    {members : List (UInt64 × CoreconfValueT)} (each : ∀ member ∈ members, member.2.Valid) :
    CoreconfValueT.Valid (.hashmap (insertMembers members map)) := by
  induction members generalizing map with
  | nil => exact valid
  | cons member rest ih =>
      obtain ⟨first, others⟩ := List.forall_mem_cons.mp each
      exact ih (valid.insert first member.1) others

/-- Up to 51 entries make the finite map of the entries. -/
theorem insertMembers_create {members : List (UInt64 × CoreconfValueT)}
    (few : members.length ≤ Item.maxEntries) :
    (insertMembers members createCoreconfHashmap).content =
      FinMap.ofList (members.map fun member => (member.1.toNat, member.2.toTree)) := by
  rw [insertMembers_content repInv_create (by simpa [createCoreconfHashmap] using few),
    CoreconfHashMapT.content_create,
    FinMap.ofList, List.foldl_map]

end Coreconf

namespace Cbor.Item

open Coreconf (CoreconfValueT CString Tree)

theorem members?_length {entries : List (Item × Item)} {members : List (UInt64 × CoreconfValueT)}
    (read : members? entries = some members) : members.length = entries.length := by
  induction entries generalizing members with
  | nil =>
      cases read
      rfl
  | cons entry rest ih =>
      obtain ⟨key, item⟩ := entry
      rw [members?] at read
      split at read
      · rename_i later
        cases read
        simp [ih later]
      · cases read

theorem values?_append {items items' : List Item} {values : List CoreconfValueT}
    (read : values? (items ++ items') = some values) :
    ∃ first later, values? items = some first ∧ values? items' = some later ∧ values = first ++ later := by
  induction items generalizing values with
  | nil => exact ⟨[], values, rfl, read, rfl⟩
  | cons item rest ih =>
      rw [List.cons_append, values?] at read
      split at read
      · rename_i value others found foundOthers
        cases read
        obtain ⟨first, later, readFirst, readLater, rfl⟩ := ih foundOthers
        exact ⟨value :: first, later, by rw [values?, found, readFirst], readLater, rfl⟩
      · cases read

theorem members?_append {entries entries' : List (Item × Item)} {members : List (UInt64 × CoreconfValueT)}
    (read : members? (entries ++ entries') = some members) :
    ∃ first later, members? entries = some first ∧ members? entries' = some later ∧
      members = first ++ later := by
  induction entries generalizing members with
  | nil => exact ⟨[], members, rfl, read, rfl⟩
  | cons entry rest ih =>
      obtain ⟨key, item⟩ := entry
      rw [List.cons_append, members?] at read
      split at read
      · rename_i sid value others keyed found foundOthers
        cases read
        obtain ⟨first, later, readFirst, readLater, rfl⟩ := ih foundOthers
        exact ⟨(sid, value) :: first, later, by rw [members?, keyed, found, readFirst], readLater, rfl⟩
      · cases read

theorem mem_values? {items : List Item} {values : List CoreconfValueT} (read : values? items = some values)
    {item : Item} (member : item ∈ items) : ∃ value, item.value? = some value := by
  induction items generalizing values with
  | nil => cases member
  | cons first rest ih =>
      rw [values?] at read
      split at read
      · rename_i value later found foundLater
        rcases List.mem_cons.mp member with rfl | member
        · exact ⟨value, found⟩
        · exact ih foundLater member
      · cases read

theorem mem_members? {entries : List (Item × Item)} {members : List (UInt64 × CoreconfValueT)}
    (read : members? entries = some members) {entry : Item × Item} (member : entry ∈ entries) :
    ∃ sid value, entry.1.sid? = some sid ∧ entry.2.value? = some value ∧ (sid, value) ∈ members := by
  induction entries generalizing members with
  | nil => cases member
  | cons first rest ih =>
      obtain ⟨key, item⟩ := first
      rw [members?] at read
      split at read
      · rename_i sid value later keyed found foundLater
        cases read
        rcases List.mem_cons.mp member with rfl | member
        · exact ⟨sid, value, keyed, found, List.mem_cons_self⟩
        · obtain ⟨sid, value, keyed, found, inside⟩ := ih foundLater member
          exact ⟨sid, value, keyed, found, List.mem_cons_of_mem _ inside⟩
      · cases read

theorem values?_valid {items : List Item} {values : List CoreconfValueT}
    (read : values? items = some values)
    (each : ∀ item ∈ items, ∀ value, item.value? = some value → value.Valid) :
    ∀ value ∈ values, value.Valid := by
  induction items generalizing values with
  | nil =>
      cases read
      simp
  | cons item rest ih =>
      obtain ⟨first, others⟩ := List.forall_mem_cons.mp each
      rw [values?] at read
      split at read
      · rename_i value later found foundLater
        cases read
        exact List.forall_mem_cons.mpr ⟨first value found, ih foundLater others⟩
      · cases read

theorem members?_valid {entries : List (Item × Item)} {members : List (UInt64 × CoreconfValueT)}
    (read : members? entries = some members)
    (each : ∀ entry ∈ entries, ∀ value, entry.2.value? = some value → value.Valid) :
    ∀ member ∈ members, member.2.Valid := by
  induction entries generalizing members with
  | nil =>
      cases read
      simp
  | cons entry rest ih =>
      obtain ⟨key, item⟩ := entry
      obtain ⟨first, others⟩ := List.forall_mem_cons.mp each
      rw [members?] at read
      split at read
      · rename_i value later keyed found foundLater
        cases read
        exact List.forall_mem_cons.mpr ⟨first value found, ih foundLater others⟩
      · cases read

/-- The value of an item is one of valid maps. -/
theorem value?_valid {item : Item} {value : CoreconfValueT} (read : item.value? = some value) :
    value.Valid := by
  induction item generalizing value with
  | list framing items ih =>
      obtain ⟨values, every, rfl⟩ := Option.map_eq_some_iff.mp read
      exact .array (values?_valid every fun item member value => ih item member)
  | map framing entries ih =>
      rw [value?] at read
      split at read
      · cases read
      · obtain ⟨members, every, rfl⟩ := Option.map_eq_some_iff.mp read
        exact Coreconf.insertMembers_valid CoreconfValueT.valid_createCoreconfHashmap
          (members?_valid every fun entry member value => (ih entry member).2)
  | nint w n =>
      rw [value?, Option.ite_none_right_eq_some] at read
      obtain ⟨-, same⟩ := read
      cases same
      exact .leaf rfl
  | primitive w n =>
      rw [value?] at read
      unfold simpleValue? at read
      split at read <;> cases read <;> exact .leaf rfl
  | _ => cases read <;> exact .leaf rfl

theorem levelsItems_le {item : Item} {items : List Item} (member : item ∈ items) :
    levels item + 1 ≤ levelsItems items := by
  induction items with
  | nil => cases member
  | cons head rest ih =>
      rw [levelsItems]
      rcases List.mem_cons.mp member with rfl | member
      · exact le_max_left _ _
      · exact (ih member).trans (le_max_right _ _)

theorem levelsEntries_le {entry : Item × Item} {entries : List (Item × Item)}
    (member : entry ∈ entries) : levels entry.2 + 1 ≤ levelsEntries entries := by
  induction entries with
  | nil => cases member
  | cons head rest ih =>
      rw [levelsEntries]
      rcases List.mem_cons.mp member with rfl | member
      · exact le_max_left _ _
      · exact (ih member).trans (le_max_right _ _)

theorem levels_le_depth (item : Item) : levels item ≤ depth item := by
  induction item with
  | list framing items ih =>
      rw [levels, depth]
      induction items with
      | nil => exact Nat.zero_le _
      | cons item rest ihRest =>
          have head := ih item List.mem_cons_self
          have tail := ihRest fun item member => ih item (List.mem_cons_of_mem _ member)
          simp only [levelsItems, depthItems]
          omega
  | map framing entries ih =>
      rw [levels, depth]
      induction entries with
      | nil => exact Nat.zero_le _
      | cons entry rest ihRest =>
          have head := (ih entry List.mem_cons_self).2
          have tail := ihRest fun entry member => ih entry (List.mem_cons_of_mem _ member)
          simp only [levelsEntries, depthEntries]
          omega
  | _ => exact Nat.zero_le _

theorem simpleTree?_of_value {w : Width} {n : Nat} {value : CoreconfValueT}
    (read : simpleValue? w n = some value) : simpleTree? w n = some value.toTree := by
  unfold simpleValue? at read
  split at read <;> cases read <;> rfl

end Cbor.Item
