import Mathlib.Data.List.Basic
import Mathlib.Data.Nat.Basic
import Mathlib.Tactic.Positivity
import Mathlib.Tactic.Ring

set_option autoImplicit false

/- CBOR data items (RFC 8949) and their encodings: every head width, definite
and indefinite containers, chunked strings, tags and simple values. -/
namespace Cbor

/-- The number whose big-endian bytes these are. -/
def beNat (bytes : List UInt8) : Nat := bytes.foldl (fun n byte => n * 256 + byte.toNat) 0

def beBytes : Nat → Nat → List UInt8
  | 0, _ => []
  | length + 1, n => UInt8.ofNat (n / 256 ^ length) :: beBytes length n

@[simp] theorem beBytes_length (length n : Nat) : (beBytes length n).length = length := by
  induction length with
  | zero => rfl
  | succ length ih => simp [beBytes, ih]

private theorem beNat_foldl (bytes : List UInt8) (n : Nat) :
    bytes.foldl (fun n byte => n * 256 + byte.toNat) n = n * 256 ^ bytes.length + beNat bytes := by
  induction bytes generalizing n with
  | nil => simp [beNat]
  | cons byte rest ih =>
      simp only [beNat, List.foldl_cons, List.length_cons]
      rw [ih, ih]
      ring

theorem beNat_cons (byte : UInt8) (rest : List UInt8) :
    beNat (byte :: rest) = byte.toNat * 256 ^ rest.length + beNat rest := by
  rw [beNat, List.foldl_cons, beNat_foldl]
  simp

theorem beNat_lt (bytes : List UInt8) : beNat bytes < 256 ^ bytes.length := by
  induction bytes with
  | nil => simp [beNat]
  | cons byte rest ih =>
      have small : byte.toNat < 256 := byte.toNat_lt
      rw [beNat_cons, List.length_cons]
      calc byte.toNat * 256 ^ rest.length + beNat rest
          < byte.toNat * 256 ^ rest.length + 256 ^ rest.length := by omega
        _ = (byte.toNat + 1) * 256 ^ rest.length := by ring
        _ ≤ 256 * 256 ^ rest.length := Nat.mul_le_mul_right _ small
        _ = 256 ^ (rest.length + 1) := by ring

/-- Only the low bytes of a number reach its encoding. -/
theorem beNat_beBytes_mod (length n : Nat) : beNat (beBytes length n) = n % 256 ^ length := by
  induction length with
  | zero => simp [beBytes, beNat, Nat.mod_one]
  | succ length ih =>
      rw [beBytes, beNat_cons, beBytes_length, ih, UInt8.toNat_ofNat']
      rw [show 256 ^ (length + 1) = 256 ^ length * 256 by ring, Nat.mod_mul]
      ring

theorem beNat_beBytes {length n : Nat} (fits : n < 256 ^ length) :
    beNat (beBytes length n) = n := by
  rw [beNat_beBytes_mod, Nat.mod_eq_of_lt fits]

private theorem beBytes_add (length a b : Nat) :
    beBytes length (a * 256 ^ length + b) = beBytes length b := by
  induction length generalizing a with
  | zero => rfl
  | succ length ih =>
      have split : a * 256 ^ (length + 1) + b = a * 256 * 256 ^ length + b := by ring
      have digit : (a * 256 * 256 ^ length + b) / 256 ^ length = a * 256 + b / 256 ^ length := by
        rw [Nat.add_comm, Nat.add_mul_div_right _ _ (by positivity), Nat.add_comm]
      have low : UInt8.ofNat (a * 256 + b / 256 ^ length) = UInt8.ofNat (b / 256 ^ length) := by
        rw [← UInt8.toNat_inj, UInt8.toNat_ofNat', UInt8.toNat_ofNat', Nat.add_comm,
          Nat.add_mul_mod_self_right]
      rw [beBytes, beBytes, split, digit, low, ih]

/-- Bytes are the encoding of their number. -/
theorem beBytes_beNat (bytes : List UInt8) : beBytes bytes.length (beNat bytes) = bytes := by
  induction bytes with
  | nil => rfl
  | cons byte rest ih =>
      have digit : (byte.toNat * 256 ^ rest.length + beNat rest) / 256 ^ rest.length = byte.toNat := by
        rw [Nat.add_comm, Nat.add_mul_div_right _ _ (by positivity), Nat.div_eq_of_lt (beNat_lt rest),
          Nat.zero_add]
      rw [List.length_cons, beNat_cons, beBytes, digit, UInt8.ofNat_toNat, beBytes_add, ih]

/-- Where the argument of a head is: in the head byte or in the bytes after it. -/
inductive Width where
  | immediate | one | two | four | eight
deriving DecidableEq, Repr

namespace Width

def length : Width → Nat
  | immediate => 0
  | one => 1
  | two => 2
  | four => 4
  | eight => 8

def bound : Width → Nat
  | immediate => 24
  | one => 2 ^ 8
  | two => 2 ^ 16
  | four => 2 ^ 32
  | eight => 2 ^ 64

/-- The low five bits of the head byte. -/
def additional : Width → Nat → Nat
  | immediate, n => n
  | one, _ => 24
  | two, _ => 25
  | four, _ => 26
  | eight, _ => 27

theorem bound_le (w : Width) : w.bound ≤ 2 ^ 64 := by
  cases w <;> decide

theorem additional_le {w : Width} {n : Nat} (fits : n < w.bound) : w.additional n ≤ 27 := by
  cases w <;> simp only [additional, bound] at * <;> omega

/-- The shortest width that holds a number. -/
def least (n : Nat) : Width :=
  if n < 24 then immediate
  else if n < 2 ^ 8 then one
  else if n < 2 ^ 16 then two
  else if n < 2 ^ 32 then four
  else eight

theorem least_fits {n : Nat} (fits : n < 2 ^ 64) : n < (least n).bound := by
  unfold least
  split_ifs <;> simp only [bound] <;> assumption

end Width

/-- The first byte of an item and its argument. -/
def head (major : Nat) (w : Width) (n : Nat) : List UInt8 :=
  UInt8.ofNat (32 * major + w.additional n) :: beBytes w.length n

def indefiniteHead (major : Nat) : UInt8 := UInt8.ofNat (32 * major + 31)

/-- The "break" stop code that ends an indefinite-length item. -/
def breakCode : UInt8 := 0xFF

@[simp] theorem head_length (major : Nat) (w : Width) (n : Nat) :
    (head major w n).length = w.length + 1 := by
  simp [head]

inductive Framing where
  | definite (w : Width)
  | indefinite
deriving DecidableEq, Repr

namespace Framing

def Fits : Framing → Nat → Prop
  | definite w, count => count < w.bound
  | indefinite, _ => True

instance (f : Framing) (count : Nat) : Decidable (f.Fits count) := by
  cases f <;> unfold Fits <;> infer_instance

def opening (major : Nat) : Framing → Nat → List UInt8
  | definite w, count => head major w count
  | indefinite, _ => [indefiniteHead major]

def closing : Framing → List UInt8
  | definite _ => []
  | indefinite => [breakCode]

end Framing

/-- A data item. `primitive` is major type 7: a simple value in the head byte or
in one byte after it, a half, single or double float in two, four or eight. -/
inductive Item where
  | uint (w : Width) (n : Nat)
  | nint (w : Width) (n : Nat)
  | bstr (w : Width) (bytes : List UInt8)
  | tstr (w : Width) (bytes : List UInt8)
  | bstrChunks (chunks : List (Width × List UInt8))
  | tstrChunks (chunks : List (Width × List UInt8))
  | list (framing : Framing) (items : List Item)
  | map (framing : Framing) (entries : List (Item × Item))
  | tag (w : Width) (n : Nat) (item : Item)
  | primitive (w : Width) (n : Nat)

def string (major : Nat) (w : Width) (bytes : List UInt8) : List UInt8 :=
  head major w bytes.length ++ bytes

def chunked (major : Nat) (chunks : List (Width × List UInt8)) : List UInt8 :=
  indefiniteHead major :: (chunks.flatMap fun chunk => string major chunk.1 chunk.2) ++ [breakCode]

namespace Item

/-- Induction over items, with the hypothesis for every member of a container. -/
@[elab_as_elim, induction_eliminator]
theorem induct {motive : Item → Prop}
    (uint : ∀ w n, motive (.uint w n))
    (nint : ∀ w n, motive (.nint w n))
    (bstr : ∀ w bytes, motive (.bstr w bytes))
    (tstr : ∀ w bytes, motive (.tstr w bytes))
    (bstrChunks : ∀ chunks, motive (.bstrChunks chunks))
    (tstrChunks : ∀ chunks, motive (.tstrChunks chunks))
    (list : ∀ framing items, (∀ item ∈ items, motive item) → motive (.list framing items))
    (map : ∀ framing entries, (∀ entry ∈ entries, motive entry.1 ∧ motive entry.2) →
      motive (.map framing entries))
    (tag : ∀ w n item, motive item → motive (.tag w n item))
    (primitive : ∀ w n, motive (.primitive w n)) (item : Item) : motive item := by
  refine @Item.rec motive (fun items => ∀ item ∈ items, motive item)
    (fun entries => ∀ entry ∈ entries, motive entry.1 ∧ motive entry.2)
    (fun entry => motive entry.1 ∧ motive entry.2)
    uint nint bstr tstr bstrChunks tstrChunks list map tag primitive ?_ ?_ ?_ ?_ ?_ item
  · simp
  · rintro head rest ihHead ihRest item member
    rcases List.mem_cons.mp member with rfl | member
    · exact ihHead
    · exact ihRest item member
  · simp
  · rintro head rest ihHead ihRest entry member
    rcases List.mem_cons.mp member with rfl | member
    · exact ihHead
    · exact ihRest entry member
  · exact fun key value ihKey ihValue => ⟨ihKey, ihValue⟩

mutual

def encode : Item → List UInt8
  | uint w n => head 0 w n
  | nint w n => head 1 w n
  | bstr w bytes => string 2 w bytes
  | tstr w bytes => string 3 w bytes
  | bstrChunks chunks => chunked 2 chunks
  | tstrChunks chunks => chunked 3 chunks
  | list framing items => framing.opening 4 items.length ++ encodeItems items ++ framing.closing
  | map framing entries =>
      framing.opening 5 entries.length ++ encodeEntries entries ++ framing.closing
  | tag w n item => head 6 w n ++ encode item
  | primitive w n => head 7 w n

def encodeItems : List Item → List UInt8
  | [] => []
  | item :: rest => encode item ++ encodeItems rest

def encodeEntries : List (Item × Item) → List UInt8
  | [] => []
  | (key, value) :: rest => encode key ++ encode value ++ encodeEntries rest

end

/-- Well-formedness: every argument fits its width, chunks are definite strings, a
simple value below 32 is never in a byte of its own. -/
inductive WellFormed : Item → Prop
  | uint {w n} (fits : n < w.bound) : WellFormed (.uint w n)
  | nint {w n} (fits : n < w.bound) : WellFormed (.nint w n)
  | bstr {w bytes} (fits : bytes.length < w.bound) : WellFormed (.bstr w bytes)
  | tstr {w bytes} (fits : bytes.length < w.bound) : WellFormed (.tstr w bytes)
  | bstrChunks {chunks} (fits : ∀ chunk ∈ chunks, chunk.2.length < chunk.1.bound) :
      WellFormed (.bstrChunks chunks)
  | tstrChunks {chunks} (fits : ∀ chunk ∈ chunks, chunk.2.length < chunk.1.bound) :
      WellFormed (.tstrChunks chunks)
  | list {framing items} (fits : framing.Fits items.length)
      (members : ∀ item ∈ items, WellFormed item) : WellFormed (.list framing items)
  | map {framing entries} (fits : framing.Fits entries.length)
      (keys : ∀ entry ∈ entries, WellFormed entry.1)
      (values : ∀ entry ∈ entries, WellFormed entry.2) : WellFormed (.map framing entries)
  | tag {w n item} (fits : n < w.bound) (inner : WellFormed item) : WellFormed (.tag w n item)
  | primitive {w n} (fits : n < w.bound) (simple : w = .one → 32 ≤ n) :
      WellFormed (.primitive w n)

def major : Item → Nat
  | uint .. => 0
  | nint .. => 1
  | bstr .. | bstrChunks .. => 2
  | tstr .. | tstrChunks .. => 3
  | list .. => 4
  | map .. => 5
  | tag .. => 6
  | primitive .. => 7

mutual

/-- How deep containers nest in the item. -/
def depth : Item → Nat
  | list _ items => depthItems items + 1
  | map _ entries => depthEntries entries + 1
  | tag _ _ item => depth item
  | _ => 0

def depthItems : List Item → Nat
  | [] => 0
  | item :: rest => max (depth item) (depthItems rest)

def depthEntries : List (Item × Item) → Nat
  | [] => 0
  | (key, value) :: rest => max (max (depth key) (depth value)) (depthEntries rest)

end

@[simp] theorem encodeItems_append (items items' : List Item) :
    encodeItems (items ++ items') = encodeItems items ++ encodeItems items' := by
  induction items with
  | nil => rfl
  | cons item rest ih => simp [encodeItems, ih]

@[simp] theorem encodeEntries_append (entries entries' : List (Item × Item)) :
    encodeEntries (entries ++ entries') = encodeEntries entries ++ encodeEntries entries' := by
  induction entries with
  | nil => rfl
  | cons entry rest ih => simp [encodeEntries, ih]

theorem depthEntries_append (entries entries' : List (Item × Item)) :
    depthEntries (entries ++ entries') = max (depthEntries entries) (depthEntries entries') := by
  induction entries with
  | nil => simp [depthEntries]
  | cons entry rest ih => simp only [List.cons_append, depthEntries, ih, Nat.max_assoc]

theorem depth_le_depthItems {item : Item} {items : List Item} (member : item ∈ items) :
    depth item ≤ depthItems items := by
  induction items with
  | nil => cases member
  | cons head rest ih =>
      rw [depthItems]
      rcases List.mem_cons.mp member with rfl | member
      · exact le_max_left _ _
      · exact (ih member).trans (le_max_right _ _)

theorem depth_le_depthEntries {entry : Item × Item} {entries : List (Item × Item)}
    (member : entry ∈ entries) : depth entry.2 ≤ depthEntries entries := by
  induction entries with
  | nil => cases member
  | cons head rest ih =>
      rw [depthEntries]
      rcases List.mem_cons.mp member with rfl | member
      · exact (le_max_right _ _).trans (le_max_left _ _)
      · exact (ih member).trans (le_max_right _ _)

theorem depthItems_le {items : List Item} {n : Nat} (each : ∀ item ∈ items, depth item ≤ n) :
    depthItems items ≤ n := by
  induction items with
  | nil => exact Nat.zero_le n
  | cons item rest ih =>
      obtain ⟨first, others⟩ := List.forall_mem_cons.mp each
      exact max_le first (ih others)

theorem depthEntries_le {entries : List (Item × Item)} {n : Nat}
    (keys : ∀ entry ∈ entries, depth entry.1 ≤ n) (values : ∀ entry ∈ entries, depth entry.2 ≤ n) :
    depthEntries entries ≤ n := by
  induction entries with
  | nil => exact Nat.zero_le n
  | cons entry rest ih =>
      obtain ⟨firstKey, otherKeys⟩ := List.forall_mem_cons.mp keys
      obtain ⟨first, others⟩ := List.forall_mem_cons.mp values
      exact max_le (max_le firstKey first) (ih otherKeys others)

/-- The first item that is deeper than the ones before it. -/
theorem depthItems_split {items : List Item} {n : Nat} (deep : n < depthItems items) :
    ∃ before item later, items = before ++ item :: later ∧ depthItems before ≤ n ∧ n < depth item := by
  induction items with
  | nil => cases deep
  | cons item rest ih =>
      by_cases first : n < depth item
      · exact ⟨[], item, rest, rfl, Nat.zero_le n, first⟩
      · rw [depthItems] at deep
        obtain ⟨before, next, later, rfl, shallow, found⟩ := ih (by omega)
        refine ⟨item :: before, next, later, rfl, ?_, found⟩
        rw [depthItems]
        omega

/-- The first entry that is deeper than the ones before it. -/
theorem depthEntries_split {entries : List (Item × Item)} {n : Nat} (deep : n < depthEntries entries) :
    ∃ before key item later, entries = before ++ (key, item) :: later ∧ depthEntries before ≤ n ∧
      n < max (depth key) (depth item) := by
  induction entries with
  | nil => cases deep
  | cons entry rest ih =>
      obtain ⟨key, item⟩ := entry
      by_cases first : n < max (depth key) (depth item)
      · exact ⟨[], key, item, rest, rfl, Nat.zero_le n, first⟩
      · rw [depthEntries] at deep
        obtain ⟨before, key', item', later, rfl, shallow, found⟩ := ih (by omega)
        refine ⟨(key, item) :: before, key', item', later, rfl, ?_, found⟩
        rw [depthEntries]
        omega

private theorem head_first {major : Nat} {w : Width} {n : Nat} (small : major < 8)
    (fits : n < w.bound) : ∃ byte rest, head major w n = byte :: rest ∧
      byte.toNat / 32 = major ∧ byte.toNat % 32 ≤ 27 := by
  have additional := Width.additional_le fits
  refine ⟨_, _, rfl, ?_, ?_⟩ <;> rw [UInt8.toNat_ofNat'] <;> omega

private theorem indefinite_first : ∀ major < 7,
    (indefiniteHead major).toNat / 32 = major ∧ indefiniteHead major ≠ breakCode := by
  decide

/-- The first byte of an item tells its major type and is never the stop code. -/
theorem encode_first {item : Item} (wellFormed : item.WellFormed) :
    ∃ byte rest, item.encode = byte :: rest ∧ byte.toNat / 32 = item.major ∧ byte ≠ breakCode := by
  have ofHead : ∀ {major : Nat} {w : Width} {n : Nat} (later : List UInt8), major < 8 → n < w.bound →
      ∃ byte rest, head major w n ++ later = byte :: rest ∧ byte.toNat / 32 = major ∧
        byte ≠ breakCode := by
    intro major w n later small fits
    obtain ⟨byte, rest, same, majorType, additional⟩ := head_first small fits
    refine ⟨byte, rest ++ later, by rw [same, List.cons_append], majorType, ?_⟩
    rintro rfl
    exact absurd additional (by decide)
  have ofIndefinite : ∀ {major : Nat} (later : List UInt8), major < 7 →
      ∃ byte rest, indefiniteHead major :: later = byte :: rest ∧ byte.toNat / 32 = major ∧
        byte ≠ breakCode :=
    fun later small => ⟨_, later, rfl, (indefinite_first _ small).1, (indefinite_first _ small).2⟩
  cases wellFormed with
  | uint fits => simpa [encode, major] using ofHead [] (show 0 < 8 by decide) fits
  | nint fits => simpa [encode, major] using ofHead [] (show 1 < 8 by decide) fits
  | bstr fits => exact ofHead _ (show 2 < 8 by decide) fits
  | tstr fits => exact ofHead _ (show 3 < 8 by decide) fits
  | bstrChunks fits => exact ofIndefinite _ (by decide)
  | tstrChunks fits => exact ofIndefinite _ (by decide)
  | @list framing items fits members =>
      cases framing with
      | definite w => simpa [encode, major, Framing.opening] using ofHead _ (show 4 < 8 by decide) fits
      | indefinite => exact ofIndefinite _ (by decide)
  | @map framing entries fits keys values =>
      cases framing with
      | definite w => simpa [encode, major, Framing.opening] using ofHead _ (show 5 < 8 by decide) fits
      | indefinite => exact ofIndefinite _ (by decide)
  | tag fits inner => exact ofHead _ (show 6 < 8 by decide) fits
  | primitive fits simple => simpa [encode, major] using ofHead [] (show 7 < 8 by decide) fits

theorem encode_ne_nil {item : Item} (wellFormed : item.WellFormed) : item.encode ≠ [] := by
  obtain ⟨byte, rest, first, -⟩ := encode_first wellFormed
  rw [first]
  exact List.cons_ne_nil byte rest

end Item

end Cbor
