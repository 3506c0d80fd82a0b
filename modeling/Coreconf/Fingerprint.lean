import Coreconf.Server
import Mathlib.Data.Nat.Digits.Lemmas

set_option autoImplicit false

/- The fingerprint of the SID dictionaries, the same in coreconf_server.c and coreconf_cli.c:
the server shows its own at /sid and the client compares it with the one it computes. -/
namespace Coreconf

open Function (Injective)

section Mixing

variable {α β : Type} {mix : β → α → β}

/-- Where mixing in a value is injective in the hash, so is mixing in many. -/
theorem foldl_injective (hashes : ∀ a, Injective (mix · a)) (values : List α) :
    Injective fun hash => values.foldl mix hash := by
  induction values with
  | nil => exact fun _ _ same => same
  | cons value rest ih => exact fun _ _ same => hashes value (ih same)

/-- One value replaced by another changes the hash, whatever is mixed in after it. -/
theorem foldl_set_ne (hashes : ∀ a, Injective (mix · a)) (values : ∀ b, Injective (mix b))
    (sids : List α) (hash : β) {index : Nat} (inside : index < sids.length) {other : α}
    (differs : sids[index] ≠ other) :
    sids.foldl mix hash ≠ (sids.set index other).foldl mix hash := by
  induction sids generalizing hash index with
  | nil => cases inside
  | cons sid rest ih =>
      cases index with
      | zero => exact fun same => differs (values hash (foldl_injective hashes rest same))
      | succ index => exact ih (mix hash sid) (Nat.lt_of_succ_lt_succ inside) differs

end Mixing

def sidHashMixU64 (hash value : UInt64) : UInt64 := (hash ^^^ value) * 1099511628211

/-- The multiplier is odd, so it has an inverse modulo 2^64. -/
theorem mul_injective : Injective fun hash : UInt64 => hash * 1099511628211 := by
  intro a b same
  have undone : ∀ hash : UInt64, hash * 1099511628211 * 14886173955864302971 = hash := by
    intro hash
    rw [UInt64.mul_assoc, show (1099511628211 * 14886173955864302971 : UInt64) = 1 by decide,
      UInt64.mul_one]
  rw [← undone a, ← undone b]
  exact congrArg (· * 14886173955864302971) same

theorem sidHashMixU64_hash_injective (value : UInt64) : Injective (sidHashMixU64 · value) := by
  intro a b same
  have mixed := congrArg (· ^^^ value) (mul_injective same)
  simpa only [UInt64.xor_assoc, UInt64.xor_self, UInt64.xor_zero] using mixed

theorem sidHashMixU64_value_injective (hash : UInt64) : Injective (sidHashMixU64 hash) := by
  intro a b same
  refine sidHashMixU64_hash_injective hash ?_
  simpa only [sidHashMixU64, UInt64.xor_comm hash] using same

/-- What a server or a client read from its SID files. -/
structure SidDictionary where
  sys : RuntimeSystemSids
  ifs : RuntimeInterfacesSids
  ops : RuntimeOperationSids

def Environment.dictionary (env : Environment) : SidDictionary := ⟨env.sysSids, env.ifSids, env.opsSids⟩

/-- The SIDs in the order in which they are mixed in. -/
def SidDictionary.sids (d : SidDictionary) : Vector UInt64 23 :=
  #v[d.sys.module, d.sys.clock, d.sys.clockBoot, d.sys.clockCurrent, d.sys.ntpEnabled,
    d.sys.ntpServer, d.sys.ntpServerName, d.sys.ntpServerPrefer, d.sys.ntpServerUdp,
    d.sys.ntpServerUdpAddress,
    d.ifs.module, d.ifs.iface, d.ifs.ifaceDescription, d.ifs.ifaceEnabled, d.ifs.ifaceName,
    d.ifs.ifaceType, d.ifs.ifaceOperStatus, d.ifs.identityEthernetCsmacd,
    d.ops.rebootRpcSid, d.ops.rebootInputDelay, d.ops.resetActionSid, d.ops.resetInputResetAt,
    d.ops.resetOutputFinishedAt]

def computeSidFingerprint (d : SidDictionary) : UInt64 :=
  let h : UInt64 := 1469598103934665603
  let h := sidHashMixU64 h d.sys.module
  let h := sidHashMixU64 h d.sys.clock
  let h := sidHashMixU64 h d.sys.clockBoot
  let h := sidHashMixU64 h d.sys.clockCurrent
  let h := sidHashMixU64 h d.sys.ntpEnabled
  let h := sidHashMixU64 h d.sys.ntpServer
  let h := sidHashMixU64 h d.sys.ntpServerName
  let h := sidHashMixU64 h d.sys.ntpServerPrefer
  let h := sidHashMixU64 h d.sys.ntpServerUdp
  let h := sidHashMixU64 h d.sys.ntpServerUdpAddress
  let h := sidHashMixU64 h d.ifs.module
  let h := sidHashMixU64 h d.ifs.iface
  let h := sidHashMixU64 h d.ifs.ifaceDescription
  let h := sidHashMixU64 h d.ifs.ifaceEnabled
  let h := sidHashMixU64 h d.ifs.ifaceName
  let h := sidHashMixU64 h d.ifs.ifaceType
  let h := sidHashMixU64 h d.ifs.ifaceOperStatus
  let h := sidHashMixU64 h d.ifs.identityEthernetCsmacd
  let h := sidHashMixU64 h d.ops.rebootRpcSid
  let h := sidHashMixU64 h d.ops.rebootInputDelay
  let h := sidHashMixU64 h d.ops.resetActionSid
  let h := sidHashMixU64 h d.ops.resetInputResetAt
  let h := sidHashMixU64 h d.ops.resetOutputFinishedAt
  h

theorem computeSidFingerprint_eq (d : SidDictionary) :
    computeSidFingerprint d = d.sids.toList.foldl sidHashMixU64 1469598103934665603 := rfl

/-- The digits that `%llu` prints. -/
def decimal (n : Nat) : List UInt8 :=
  if n = 0 then [0x30] else (Nat.digits 10 n).reverse.map fun digit => UInt8.ofNat (0x30 + digit)

def CF_TEXT_PLAIN : Nat := 0

/-- The longest text has 37 bytes, so the 96-byte body never cuts it. -/
def handleSidInfo (sidFingerprint : UInt64) : Response :=
  ⟨.content, some CF_TEXT_PLAIN, text "sid-fingerprint=" ++ decimal sidFingerprint.toNat ++ text "\n"⟩

def isDigit (byte : UInt8) : Bool := 0x30 ≤ byte && byte ≤ 0x39

/-- `isspace` in the C locale. -/
def isSpace (byte : UInt8) : Bool := byte = 0x20 || (0x09 ≤ byte && byte ≤ 0x0D)

/-- The value of the digits, most significant first. -/
def digitsValue (digits : List UInt8) : Nat :=
  digits.foldl (fun n digit => 10 * n + (digit.toNat - 0x30)) 0

/-- A sign before the digits, and what follows it. -/
def scanSign : List UInt8 → Bool × List UInt8
  | [] => (false, [])
  | byte :: rest =>
      if byte = 0x2D then (true, rest)
      else if byte = 0x2B then (false, rest)
      else (false, byte :: rest)

/-- `%llu` of a scan: a number that is too large reads as the largest. -/
def scanU64 (bytes : List UInt8) : Option UInt64 :=
  let (negative, bytes) := scanSign (bytes.dropWhile isSpace)
  let digits := bytes.takeWhile isDigit
  if digits = [] then none
  else if digitsValue digits ≥ 2 ^ 64 then some (UInt64.ofNat (2 ^ 64 - 1))
  else if negative then some (-UInt64.ofNat (digitsValue digits))
  else some (UInt64.ofNat (digitsValue digits))

def scanFingerprint (payload : CString) : Option UInt64 :=
  (payload.bytes.dropPrefix? (text "sid-fingerprint=")).bind scanU64

theorem decimal_isDigit {n : Nat} {byte : UInt8} (member : byte ∈ decimal n) : isDigit byte = true := by
  rw [decimal] at member
  split at member
  · rw [List.mem_singleton.mp member]
    decide
  · obtain ⟨digit, found, rfl⟩ := List.mem_map.mp member
    have small := Nat.digits_lt_base (by decide) (List.mem_reverse.mp found)
    interval_cases digit <;> decide

theorem decimal_ne_nil (n : Nat) : decimal n ≠ [] := by
  rw [decimal]
  split
  · exact List.cons_ne_nil _ _
  · rename_i positive
    simpa using Nat.digits_ne_nil_iff_ne_zero.mpr positive

theorem digitsValue_decimal (n : Nat) : digitsValue (decimal n) = n := by
  rw [decimal]
  split
  · rename_i zero
    rw [zero]
    decide
  · have digit_value : ∀ digit ∈ Nat.digits 10 n, (UInt8.ofNat (0x30 + digit)).toNat - 0x30 = digit := by
      intro digit member
      have small := Nat.digits_lt_base (by decide) member
      interval_cases digit <;> decide
    have folded : ∀ digits : List Nat, (∀ digit ∈ digits, (UInt8.ofNat (0x30 + digit)).toNat - 0x30 = digit) →
        digitsValue (digits.reverse.map fun digit => UInt8.ofNat (0x30 + digit)) = Nat.ofDigits 10 digits := by
      intro digits values
      induction digits with
      | nil => rfl
      | cons digit rest ih =>
          obtain ⟨first, later⟩ := List.forall_mem_cons.mp values
          have same := ih later
          rw [digitsValue] at same ⊢
          rw [List.reverse_cons, List.map_append, List.foldl_append, same, Nat.ofDigits_cons]
          simp only [List.map_cons, List.map_nil, List.foldl_cons, List.foldl_nil, first]
          simp [Nat.add_comm]
    rw [folded _ digit_value, Nat.ofDigits_digits]

theorem decimal_length {n : Nat} (bound : n < 2 ^ 64) : (decimal n).length ≤ 20 := by
  rw [decimal]
  split
  · decide
  · rw [List.length_map, List.length_reverse]
    exact (Nat.digits_length_le_iff (by decide) n).mpr (by omega)

/-- Digits in front of anything else are scanned as their value. -/
theorem scanU64_digits {digits tail : List UInt8} (nonempty : digits ≠ [])
    (all : ∀ byte ∈ digits, isDigit byte = true) (stop : ∀ byte ∈ tail.head?, isDigit byte = false)
    (bound : digitsValue digits < 2 ^ 64) :
    scanU64 (digits ++ tail) = some (UInt64.ofNat (digitsValue digits)) := by
  have taken : (digits ++ tail).takeWhile isDigit = digits := by
    rw [List.takeWhile_append_of_pos all]
    cases tail with
    | nil => exact List.append_nil digits
    | cons byte rest =>
        rw [List.takeWhile_cons_of_neg (by simpa using stop byte rfl), List.append_nil]
  have unsigned : scanSign ((digits ++ tail).dropWhile isSpace) = (false, digits ++ tail) := by
    cases digits with
    | nil => exact absurd rfl nonempty
    | cons first rest =>
        have digit : 0x30 ≤ first ∧ first ≤ 0x39 := by simpa [isDigit] using all first List.mem_cons_self
        have notSpace : isSpace first = false := by
          have low := UInt8.le_iff_toNat_le.mp digit.1
          have below : ¬ first ≤ 0x0D := by
            rw [UInt8.le_iff_toNat_le]
            simp only [UInt8.reduceToNat] at low ⊢
            omega
          have other : first ≠ 0x20 := by
            rintro rfl
            exact absurd digit.1 (by decide)
          simp [isSpace, below, other]
        have minus : first ≠ 0x2D := by
          rintro rfl
          exact absurd digit.1 (by decide)
        have plus : first ≠ 0x2B := by
          rintro rfl
          exact absurd digit.1 (by decide)
        simp [scanSign, notSpace, minus, plus]
  rw [scanU64, unsigned]
  simp only [taken, if_neg nonempty, if_neg (Nat.not_le.mpr bound), Bool.false_eq_true, if_false]

private theorem label_bytes : text "sid-fingerprint=" =
    [0x73, 0x69, 0x64, 0x2D, 0x66, 0x69, 0x6E, 0x67, 0x65, 0x72, 0x70, 0x72, 0x69, 0x6E, 0x74, 0x3D] := by
  decide +kernel

private theorem newline_bytes : text "\n" = [0x0A] := by decide +kernel

/-- What the server shows is read back. -/
theorem scanFingerprint_info (fp : UInt64) :
    scanFingerprint (CString.ofBuffer ((handleSidInfo fp).payload.take 127)) = some fp := by
  have length : (handleSidInfo fp).payload.length ≤ 127 := by
    have digits := decimal_length fp.toNat_lt
    simp only [handleSidInfo, label_bytes, newline_bytes, List.length_append, List.length_cons,
      List.length_nil]
    omega
  have noNul : ∀ byte ∈ (handleSidInfo fp).payload, byte ≠ 0 := by
    intro byte member
    simp only [handleSidInfo, label_bytes, newline_bytes, List.mem_append] at member
    rcases member with (label | digit) | newline
    · rintro rfl
      exact absurd label (by decide)
    · rintro rfl
      exact absurd (decimal_isDigit digit) (by decide)
    · rintro rfl
      exact absurd newline (by decide)
  have bytes : (CString.ofBuffer ((handleSidInfo fp).payload.take 127)).bytes =
      text "sid-fingerprint=" ++ (decimal fp.toNat ++ [0x0A]) := by
    rw [List.take_of_length_le length]
    have whole : (CString.ofBuffer (handleSidInfo fp).payload).bytes = (handleSidInfo fp).payload :=
      List.takeWhile_eq_self_iff.mpr fun byte member => by simpa using noNul byte member
    rw [whole, handleSidInfo, List.append_assoc, newline_bytes]
  rw [scanFingerprint, bytes, List.dropPrefix?_eq_some_iff.mpr ⟨_, rfl, BEq.rfl⟩, Option.bind_some,
    scanU64_digits (decimal_ne_nil _) (fun _ => decimal_isDigit) (by simp [isDigit]), digitsValue_decimal,
    UInt64.ofNat_toNat]
  rw [digitsValue_decimal]
  exact fp.toNat_lt

/-- `none` is a request that could not be sent or had no answer. -/
def checkServerSidCompatibility (localFp : UInt64) (response : Option (List UInt8)) : Int :=
  match response with
  | none => -1
  | some buf =>
      if buf = [] then -1
      else
        match scanFingerprint (CString.ofBuffer (buf.take 127)) with
        | none => -1
        | some remoteFp => if localFp ≠ remoteFp then -1 else 0

/-- The check is of the two fingerprints, whatever they are. -/
theorem checkServerSidCompatibility_info (localFp serverFp : UInt64) :
    checkServerSidCompatibility localFp (some (handleSidInfo serverFp).payload) =
      if localFp ≠ serverFp then -1 else 0 := by
  have nonempty : (handleSidInfo serverFp).payload ≠ [] := by
    simp [handleSidInfo, decimal_ne_nil]
  simp only [checkServerSidCompatibility, if_neg nonempty, scanFingerprint_info]

/-- Two dictionaries that differ in one SID have different fingerprints, so a client that has
the one refuses a server that has the other. -/
theorem single_mismatch_detected (d d' : SidDictionary) (index : Fin 23)
    (differs : d.sids[index] ≠ d'.sids[index])
    (elsewhere : ∀ other : Fin 23, other ≠ index → d.sids[other] = d'.sids[other]) :
    computeSidFingerprint d ≠ computeSidFingerprint d' ∧
      checkServerSidCompatibility (computeSidFingerprint d)
        (some (handleSidInfo (computeSidFingerprint d')).payload) = -1 := by
  have replaced : d'.sids.toList = d.sids.toList.set index d'.sids[index] := by
    apply List.ext_getElem
    · simp
    · intro other bound _
      have inside : other < 23 := by simpa using bound
      rw [List.getElem_set]
      split
      · rename_i here
        subst here
        rfl
      · rename_i there
        exact (elsewhere ⟨other, inside⟩ fun same => there (congrArg Fin.val same).symm).symm
  have distinct : computeSidFingerprint d ≠ computeSidFingerprint d' := by
    rw [computeSidFingerprint_eq, computeSidFingerprint_eq, replaced]
    exact foldl_set_ne sidHashMixU64_hash_injective sidHashMixU64_value_injective _ _
      (by simp) (by simpa using differs)
  exact ⟨distinct, by rw [checkServerSidCompatibility_info, if_pos distinct]⟩

/-- A client with another SID for the reboot RPC. -/
theorem reboot_mismatch_detected :
    let d := bareEnvironment.dictionary
    let d' : SidDictionary := { d with ops := { d.ops with rebootRpcSid := 61001 } }
    computeSidFingerprint d ≠ computeSidFingerprint d' ∧
      checkServerSidCompatibility (computeSidFingerprint d)
        (some (handleSidInfo (computeSidFingerprint d')).payload) = -1 :=
  single_mismatch_detected _ _ 18 (by decide) (by decide)

end Coreconf
