import Coreconf.Calendar
import Coreconf.Fingerprint
import Coreconf.Items

set_option autoImplicit false

/- The times that the reset action reads and writes, and the functions of the C library they
are converted with. -/
namespace Coreconf

open Calendar (isLeap daysBeforeYear yearOf dayOfYear daysBeforeMonth monthOf)

/-- `struct tm`, without the fields that neither function reads. -/
structure Tm where
  tmYear : Int
  tmMon : Int
  tmMday : Int
  tmHour : Int
  tmMin : Int
  tmSec : Int
deriving DecidableEq, Repr

/-- `gmtime_r` fails where the year is not an `int`. -/
def gmtimeR (when : Int) : Option Tm :=
  let days := when / 86400
  let inDay := when % 86400
  let year := yearOf days
  let day := dayOfYear days
  let month := monthOf (isLeap year) day
  if -2 ^ 31 ≤ year - 1900 ∧ year - 1900 < 2 ^ 31 then
    some {
      tmYear := year - 1900
      tmMon := month
      tmMday := day - daysBeforeMonth (isLeap year) month + 1
      tmHour := inDay / 3600
      tmMin := inDay % 3600 / 60
      tmSec := inDay % 60 }
  else none

/-- `timegm`: months out of range count into the year, and the other fields as they are. -/
def timegm (tm : Tm) : Int :=
  let year := tm.tmYear + 1900 + tm.tmMon / 12
  let month := (tm.tmMon % 12).toNat
  let days := daysBeforeYear year + daysBeforeMonth (isLeap year) month + (tm.tmMday - 1)
  days * 86400 + tm.tmHour * 3600 + tm.tmMin * 60 + tm.tmSec

/-- `%d`. -/
def printInt (i : Int) : List UInt8 := if i < 0 then 0x2D :: decimal (-i).toNat else decimal i.toNat

/-- `%02d` of a number that is not negative. -/
def printTwo (i : Int) : List UInt8 := if i < 10 then 0x30 :: decimal i.toNat else decimal i.toNat

/-- The format "%Y-%m-%dT%H:%M:%SZ". `%Y` has no leading zeros. -/
def printUtc (tm : Tm) : List UInt8 :=
  printInt (tm.tmYear + 1900) ++ 0x2D :: (printTwo (tm.tmMon + 1) ++ 0x2D :: (printTwo tm.tmMday ++
    0x54 :: (printTwo tm.tmHour ++ 0x3A :: (printTwo tm.tmMin ++ 0x3A :: (printTwo tm.tmSec ++ [0x5A])))))

/-- Nothing where the text and its NUL do not fit. -/
def strftime (outSz : Nat) (tm : Tm) : List UInt8 := if (printUtc tm).length < outSz then printUtc tm else []

def formatUtcTimestamp (outSz : Nat) (when : Int) : Option CString :=
  (gmtimeR when).bind fun utcTm =>
    let out := strftime outSz utcTm
    if out = [] then none else some (CString.ofBuffer out)

/-- `%d` of a scan with a width, which counts the sign. -/
def scanInt (width : Nat) (bytes : List UInt8) : Option (Int × List UInt8) :=
  let bytes := bytes.dropWhile isSpace
  let item := bytes.take width
  let (negative, unsigned) := scanSign item
  let digits := unsigned.takeWhile isDigit
  if digits = [] then none
  else
    let read := item.length - unsigned.length + digits.length
    some (if negative then -(digitsValue digits : Int) else digitsValue digits, bytes.drop read)

/-- A byte of a scan's format that stands for itself. -/
def scanByte (byte : UInt8) (bytes : List UInt8) : Option (List UInt8) :=
  if bytes.head? = some byte then some bytes.tail else none

/-- The scan with "%4d-%2d-%2dT%2d:%2d:%2d%c", whose last byte is to be a Z. What follows is not
looked at. -/
def parseUtcTimestamp (input : CString) : Option Int := do
  let (year, rest) ← scanInt 4 input.bytes
  let rest ← scanByte 0x2D rest
  let (month, rest) ← scanInt 2 rest
  let rest ← scanByte 0x2D rest
  let (day, rest) ← scanInt 2 rest
  let rest ← scanByte 0x54 rest
  let (hour, rest) ← scanInt 2 rest
  let rest ← scanByte 0x3A rest
  let (minute, rest) ← scanInt 2 rest
  let rest ← scanByte 0x3A rest
  let (second, rest) ← scanInt 2 rest
  let _ ← scanByte 0x5A rest
  return timegm ⟨year - 1900, month - 1, day, hour, minute, second⟩

/-- The broken-down time is within its ranges, and stands for the time it is of. -/
theorem gmtimeR_spec {when : Int} {tm : Tm} (converted : gmtimeR when = some tm) :
    timegm tm = when ∧ tm.tmYear + 1900 = yearOf (when / 86400) ∧ (0 ≤ tm.tmMon ∧ tm.tmMon ≤ 11) ∧
      (1 ≤ tm.tmMday ∧ tm.tmMday ≤ 31) ∧ (0 ≤ tm.tmHour ∧ tm.tmHour ≤ 23) ∧ (0 ≤ tm.tmMin ∧ tm.tmMin ≤ 59) ∧
      (0 ≤ tm.tmSec ∧ tm.tmSec ≤ 59) := by
  rw [gmtimeR] at converted
  split at converted
  · obtain rfl := Option.some.inj converted
    set days := when / 86400 with days_eq
    obtain ⟨first, last⟩ := Calendar.dayOfYear_bounds days
    obtain ⟨inYear, begun, ended⟩ := Calendar.monthOf_bounds first last
    set month := monthOf (isLeap (yearOf days)) (dayOfYear days) with month_eq
    have short := Calendar.daysBeforeMonth_succ_le (isLeap (yearOf days)) inYear
    have whole : days = daysBeforeYear (yearOf days) + dayOfYear days := by
      rw [dayOfYear]
      omega
    refine ⟨?_, by simp only; omega, ?_, ?_, ?_, ?_, ?_⟩
    · have noYears : (month : Int) / 12 = 0 := by omega
      have own : ((month : Int) % 12).toNat = month := by omega
      have year : yearOf days - 1900 + 1900 + 0 = yearOf days := by omega
      rw [timegm]
      simp only [noYears, own, year]
      omega
    all_goals simp only; omega
  · cases converted

theorem digit_plain {byte : UInt8} (digit : isDigit byte = true) :
    isSpace byte = false ∧ byte ≠ 0x2D ∧ byte ≠ 0x2B := by
  have range : 0x30 ≤ byte ∧ byte ≤ 0x39 := by simpa [isDigit] using digit
  refine ⟨?_, ?_, ?_⟩
  · have low := UInt8.le_iff_toNat_le.mp range.1
    have below : ¬ byte ≤ 0x0D := by
      rw [UInt8.le_iff_toNat_le]
      simp only [UInt8.reduceToNat] at low ⊢
      omega
    have other : byte ≠ 0x20 := by
      rintro rfl
      exact absurd range.1 (by decide)
    simp [isSpace, below, other]
  · rintro rfl
    exact absurd range.1 (by decide)
  · rintro rfl
    exact absurd range.1 (by decide)

section Scan

variable {digits tail : List UInt8} (nonempty : digits ≠ []) (all : ∀ byte ∈ digits, isDigit byte = true)
include nonempty all

omit nonempty in
/-- As many digits as the width allows. -/
theorem takeWhile_digits {room : Nat} (fits : digits.length ≤ room)
    (stop : digits.length = room ∨ ∀ byte ∈ tail.head?, isDigit byte = false) :
    ((digits ++ tail).take room).takeWhile isDigit = digits := by
  rw [List.take_append, List.take_of_length_le fits, List.takeWhile_append_of_pos all]
  rcases stop with full | other
  · rw [full, Nat.sub_self, List.take_zero, List.takeWhile_nil, List.append_nil]
  · have none_more : (tail.take (room - digits.length)).takeWhile isDigit = [] := by
      cases tail with
      | nil => rw [List.take_nil, List.takeWhile_nil]
      | cons byte rest =>
          cases room - digits.length with
          | zero => rfl
          | succ left => rw [List.take_succ_cons, List.takeWhile_cons_of_neg (by simpa using other byte rfl)]
    rw [none_more, List.append_nil]

theorem scanInt_digits {width : Nat} (fits : digits.length ≤ width)
    (stop : digits.length = width ∨ ∀ byte ∈ tail.head?, isDigit byte = false) :
    scanInt width (digits ++ tail) = some ((digitsValue digits : Int), tail) := by
  have taken := takeWhile_digits all fits stop
  obtain ⟨first, rest, rfl⟩ := List.exists_cons_of_ne_nil nonempty
  obtain ⟨notSpace, minus, plus⟩ := digit_plain (all first List.mem_cons_self)
  have noSpaces : (first :: rest ++ tail).dropWhile isSpace = first :: rest ++ tail := by
    rw [List.cons_append, List.dropWhile_cons_of_neg (by simp [notSpace])]
  have unsigned : scanSign ((first :: rest ++ tail).take width) = (false, (first :: rest ++ tail).take width) := by
    obtain ⟨left, rfl⟩ : ∃ k, width = k + 1 := ⟨width - 1, by rw [List.length_cons] at fits; omega⟩
    rw [List.cons_append, List.take_succ_cons, scanSign, if_neg minus, if_neg plus]
  rw [scanInt]
  simp only [noSpaces, unsigned, taken, if_neg nonempty, Nat.sub_self, Nat.zero_add, List.drop_left,
    Bool.false_eq_true, if_false]

/-- The sign takes one byte of the width. -/
theorem scanInt_minus {room : Nat} (fits : digits.length ≤ room)
    (stop : digits.length = room ∨ ∀ byte ∈ tail.head?, isDigit byte = false) :
    scanInt (room + 1) (0x2D :: (digits ++ tail)) = some (-(digitsValue digits : Int), tail) := by
  have taken := takeWhile_digits all fits stop
  have noSpaces : (0x2D :: (digits ++ tail)).dropWhile isSpace = 0x2D :: (digits ++ tail) :=
    List.dropWhile_cons_of_neg (by decide)
  have signed : scanSign ((0x2D :: (digits ++ tail)).take (room + 1)) = (true, (digits ++ tail).take room) := by
    rw [List.take_succ_cons, scanSign, if_pos rfl]
  have read : ((0x2D :: (digits ++ tail)).take (room + 1)).length - ((digits ++ tail).take room).length +
      digits.length = digits.length + 1 := by
    rw [List.take_succ_cons, List.length_cons]
    omega
  rw [scanInt]
  simp only [noSpaces, signed, taken, if_neg nonempty, read, List.drop_succ_cons, List.drop_left, if_true]

end Scan

theorem decimal_length_le {n k : Nat} (positive : 0 < k) (small : n < 10 ^ k) : (decimal n).length ≤ k := by
  rw [decimal]
  split
  · exact positive
  · rw [List.length_map, List.length_reverse]
    exact (Nat.digits_length_le_iff (by decide) n).mpr small

theorem lt_decimal_length {n k : Nat} (large : 10 ^ k ≤ n) : k < (decimal n).length := by
  have positive : n ≠ 0 := by
    have := Nat.pow_pos (n := k) (show 0 < 10 by decide)
    omega
  rw [decimal, if_neg positive, List.length_map, List.length_reverse]
  exact (Nat.lt_digits_length_iff (by decide) n).mpr large

theorem scanInt_printTwo {i : Int} (nonneg : 0 ≤ i) (small : i ≤ 99) (tail : List UInt8) :
    scanInt 2 (printTwo i ++ tail) = some (i, tail) := by
  have value : ((i.toNat : Nat) : Int) = i := Int.toNat_of_nonneg nonneg
  rw [printTwo]
  split
  next one =>
      have length : (decimal i.toNat).length = 1 := by
        have most := @decimal_length_le i.toNat 1 (by decide) (by omega)
        have least := List.length_pos_iff.mpr (decimal_ne_nil i.toNat)
        omega
      have same : digitsValue (0x30 :: decimal i.toNat) = digitsValue (decimal i.toNat) := rfl
      have scanned := @scanInt_digits (0x30 :: decimal i.toNat) tail (List.cons_ne_nil _ _)
        (List.forall_mem_cons.mpr ⟨by decide, fun byte => decimal_isDigit⟩) 2 (by rw [List.length_cons, length])
        (Or.inl (by rw [List.length_cons, length]))
      rwa [same, digitsValue_decimal, value] at scanned
  next two =>
      have length : (decimal i.toNat).length = 2 := by
        have most := @decimal_length_le i.toNat 2 (by decide) (by omega)
        have least := @lt_decimal_length i.toNat 1 (by omega)
        omega
      have scanned := @scanInt_digits (decimal i.toNat) tail (decimal_ne_nil _) (fun byte => decimal_isDigit) 2
        length.le (Or.inl length)
      rwa [digitsValue_decimal, value] at scanned

/-- A year of at most four characters is read back. -/
theorem scanInt_year {year : Int} (low : -999 ≤ year) (high : year ≤ 9999) (tail : List UInt8) :
    scanInt 4 (printInt year ++ 0x2D :: tail) = some (year, 0x2D :: tail) := by
  have stop : ∀ byte ∈ (0x2D :: tail).head?, isDigit byte = false := by
    rintro byte ⟨⟩
    decide
  rw [printInt]
  split
  next negative =>
      have value : ((-year).toNat : Int) = -year := Int.toNat_of_nonneg (by omega)
      have length := @decimal_length_le (-year).toNat 3 (by decide) (by omega)
      have scanned := scanInt_minus (decimal_ne_nil (-year).toNat) (fun byte => decimal_isDigit) length (Or.inr stop)
      rwa [digitsValue_decimal, value, Int.neg_neg] at scanned
  next positive =>
      have value : (year.toNat : Int) = year := Int.toNat_of_nonneg (by omega)
      have length := @decimal_length_le year.toNat 4 (by decide) (by omega)
      have scanned := scanInt_digits (decimal_ne_nil year.toNat) (fun byte => decimal_isDigit) length (Or.inr stop)
      rwa [digitsValue_decimal, value] at scanned

/-- Of a longer one the fourth character is no end, and the scan fails at the hyphen. -/
theorem scanInt_longYear {year : Int} (long : year < -999 ∨ 9999 < year) (tail : List UInt8) :
    ∃ value rest, scanInt 4 (printInt year ++ tail) = some (value, rest) ∧ scanByte 0x2D rest = none := by
  -- so many digits of more are read, and another one is left
  have split (n room : Nat) (more : room < (decimal n).length) (positive : 0 < room) :
      ∃ front digit behind, decimal n = front ++ digit :: behind ∧ front ≠ [] ∧ front.length = room ∧
        (∀ byte ∈ front, isDigit byte = true) ∧ isDigit digit = true := by
    refine ⟨(decimal n).take room, (decimal n)[room], (decimal n).drop (room + 1), ?_, ?_, ?_, ?_, ?_⟩
    · rw [← List.drop_eq_getElem_cons more, List.take_append_drop]
    · intro empty
      have length := congrArg List.length empty
      rw [List.length_take, List.length_nil] at length
      omega
    · rw [List.length_take, Nat.min_eq_left more.le]
    · exact fun byte member => decimal_isDigit (List.mem_of_mem_take member)
    · exact decimal_isDigit (List.getElem_mem more)
  have stuck {digit : UInt8} (is_digit : isDigit digit = true) (rest : List UInt8) :
      scanByte 0x2D (digit :: rest) = none := by
    rw [scanByte, if_neg]
    rintro same
    exact (digit_plain is_digit).2.1 (Option.some.inj same)
  rw [printInt]
  rcases long with low | high
  · have more := @lt_decimal_length (-year).toNat 3 (by omega)
    obtain ⟨front, digit, behind, whole, nonempty, length, digits, is_digit⟩ := split _ 3 more (by decide)
    rw [if_pos (by omega), whole, List.cons_append, List.append_assoc]
    exact ⟨_, _, scanInt_minus nonempty digits length.le (Or.inl length), stuck is_digit _⟩
  · have more := @lt_decimal_length year.toNat 4 (by omega)
    obtain ⟨front, digit, behind, whole, nonempty, length, digits, is_digit⟩ := split _ 4 more (by decide)
    rw [if_neg (by omega), whole, List.append_assoc]
    exact ⟨_, _, scanInt_digits nonempty digits length.le (Or.inl length), stuck is_digit _⟩

theorem scanByte_cons (byte : UInt8) (tail : List UInt8) : scanByte byte (byte :: tail) = some tail :=
  if_pos rfl

theorem decimal_noNul (n : Nat) : (0 : UInt8) ∉ decimal n :=
  fun member => absurd (decimal_isDigit member) (by decide)

theorem printInt_noNul (i : Int) : (0 : UInt8) ∉ printInt i := by
  rw [printInt]
  split
  · exact List.not_mem_cons_of_ne_of_not_mem (by decide) (decimal_noNul _)
  · exact decimal_noNul _

theorem printTwo_noNul (i : Int) : (0 : UInt8) ∉ printTwo i := by
  rw [printTwo]
  split
  · exact List.not_mem_cons_of_ne_of_not_mem (by decide) (decimal_noNul _)
  · exact decimal_noNul _

theorem printUtc_noNul (tm : Tm) : (0 : UInt8) ∉ printUtc tm := by
  simp [printUtc, printInt_noNul, printTwo_noNul]

/-- The bytes of a formatted time. -/
theorem formatUtcTimestamp_bytes {outSz : Nat} {when : Int} {s : CString}
    (formatted : formatUtcTimestamp outSz when = some s) : ∃ tm, gmtimeR when = some tm ∧ s.bytes = printUtc tm := by
  obtain ⟨tm, converted, written⟩ := Option.bind_eq_some_iff.mp formatted
  refine ⟨tm, converted, ?_⟩
  by_cases fits : (printUtc tm).length < outSz
  · rw [strftime, if_pos fits] at written
    dsimp only at written
    split at written
    · cases written
    · cases written
      rw [ofBuffer_noNul (printUtc_noNul tm)]
  · rw [strftime, if_neg fits] at written
    cases written

/-- A year of at most four characters, a minus sign among them. -/
theorem parse_formatUtcTimestamp {outSz : Nat} {when : Int} {s : CString}
    (formatted : formatUtcTimestamp outSz when = some s) (low : -999 ≤ yearOf (when / 86400))
    (high : yearOf (when / 86400) ≤ 9999) : parseUtcTimestamp s = some when := by
  obtain ⟨tm, converted, bytes⟩ := formatUtcTimestamp_bytes formatted
  obtain ⟨back, year, month, day, hour, minute, second⟩ := gmtimeR_spec converted
  rw [← year] at low high
  rw [parseUtcTimestamp, bytes, printUtc]
  simp only [Option.bind_eq_bind, Option.bind_some, scanByte_cons, scanInt_year low high,
    scanInt_printTwo (show 0 ≤ tm.tmMon + 1 by omega) (show tm.tmMon + 1 ≤ 99 by omega),
    scanInt_printTwo (show 0 ≤ tm.tmMday by omega) (show tm.tmMday ≤ 99 by omega),
    scanInt_printTwo hour.1 (show tm.tmHour ≤ 99 by omega), scanInt_printTwo minute.1 (show tm.tmMin ≤ 99 by omega),
    scanInt_printTwo second.1 (show tm.tmSec ≤ 99 by omega)]
  have same : (⟨tm.tmYear + 1900 - 1900, tm.tmMon + 1 - 1, tm.tmMday, tm.tmHour, tm.tmMin, tm.tmSec⟩ : Tm) = tm := by
    simp only [Int.add_sub_cancel]
  rw [same, back]
  rfl

/-- Of a longer year nothing is read back. -/
theorem parse_formatUtcTimestamp_none {outSz : Nat} {when : Int} {s : CString}
    (formatted : formatUtcTimestamp outSz when = some s)
    (long : yearOf (when / 86400) < -999 ∨ 9999 < yearOf (when / 86400)) : parseUtcTimestamp s = none := by
  obtain ⟨tm, converted, bytes⟩ := formatUtcTimestamp_bytes formatted
  obtain ⟨-, year, -⟩ := gmtimeR_spec converted
  rw [← year] at long
  obtain ⟨value, rest, scanned, stuck⟩ := @scanInt_longYear (tm.tmYear + 1900) long _
  rw [parseUtcTimestamp, bytes, printUtc, scanned]
  simp only [Option.bind_eq_bind, Option.bind_some, stuck, Option.bind_none]

/-- The conversions of coreconf_server.c, with the 32 bytes of `reset_finished_at`. -/
def Environment.utc (env : Environment) : Environment :=
  { env with parseUtcTimestamp := Coreconf.parseUtcTimestamp, formatUtcTimestamp := Coreconf.formatUtcTimestamp 32 }

theorem utc_reset (env : Environment) :
    env.utc.opsSids = env.opsSids ∧ env.utc.time = env.time ∧
      env.utc.parseUtcTimestamp = parseUtcTimestamp ∧ env.utc.formatUtcTimestamp = formatUtcTimestamp 32 :=
  ⟨rfl, rfl, rfl, rfl⟩

/-- What the reset action answers when it starts from `base`. -/
def resetFrom (env : Environment) (item : PostItem) (base : Int) : Except PostError PostItem :=
  (formatUtcTimestamp 32 (base + 3)).elim
    (.error (.internalError, 1013, "failed to format reset completion timestamp")) fun resetFinishedAt =>
      .ok ⟨item.iid, item.sid, some (.hashmap (insertCoreconfHashMap createCoreconfHashmap
        env.opsSids.resetOutputFinishedAt (some (CoreconfValueT.string resetFinishedAt))).2)⟩

/-- The answer of the reset action, whatever the time formats to and the map takes. -/
theorem resetAnswer_eq {item : PostItem} (formatted : Option CString)
    {inserted : Option CoreconfValueT → Int × CoreconfHashMapT CoreconfValueT}
    (fits : ∀ s, (inserted (some (CoreconfValueT.string s))).1 = 0) :
    (match formatted with
      | none => .error (.internalError, 1013, "failed to format reset completion timestamp")
      | some resetFinishedAt =>
          match inserted (some (CoreconfValueT.string resetFinishedAt)) with
          | (0, output) => .ok ⟨item.iid, item.sid, some (.hashmap output)⟩
          | _ => .error (.internalError, 1013, "failed to build reset action response")) =
      (formatted.elim (.error (.internalError, 1013, "failed to format reset completion timestamp"))
        fun resetFinishedAt =>
          .ok ⟨item.iid, item.sid, some (.hashmap (inserted (some (CoreconfValueT.string resetFinishedAt))).2)⟩ :
        Except PostError PostItem) := by
  cases formatted with
  | none => rfl
  | some resetFinishedAt =>
      have zero := fits resetFinishedAt
      rw [Option.elim_some]
      dsimp only
      generalize inserted (some (CoreconfValueT.string resetFinishedAt)) = made at zero ⊢
      obtain ⟨code, output⟩ := made
      obtain rfl : code = 0 := zero
      rfl

theorem invokeReset_utc (env : Environment) {item : PostItem} {input : CoreconfHashMapT CoreconfValueT}
    {resetAt : CString} (map : item.value = some (.hashmap input))
    (named : getCoreconfHashMap input env.opsSids.resetInputResetAt = some (.string resetAt)) :
    invokeReset env.utc item = resetFrom env item ((parseUtcTimestamp resetAt).getD env.time) := by
  obtain ⟨sids, time, parsed, formatted⟩ := utc_reset env
  rw [invokeReset, resetFrom, map, sids]
  simp only [named, parsed, time, formatted]
  exact resetAnswer_eq _ fun s =>
    insertCoreconfHashMap_short ((repInv_create.chain_length_le _).trans (Nat.zero_le _))

/-- A formatted time is read back as the time it is of exactly if its year has at most four
characters, a minus sign among them, and otherwise not at all: the reset action then starts from
the current time. -/
theorem timestamp_round_trip {outSz : Nat} {when : Int} {s : CString}
    (formatted : formatUtcTimestamp outSz when = some s) :
    parseUtcTimestamp s =
      (if -999 ≤ yearOf (when / 86400) ∧ yearOf (when / 86400) ≤ 9999 then some when else none) ∧
    ∀ (env : Environment) (item : PostItem) (input : CoreconfHashMapT CoreconfValueT),
      item.value = some (.hashmap input) →
      getCoreconfHashMap input env.opsSids.resetInputResetAt = some (.string s) →
      invokeReset env.utc item = resetFrom env item
        (if -999 ≤ yearOf (when / 86400) ∧ yearOf (when / 86400) ≤ 9999 then when else env.time) := by
  have read : parseUtcTimestamp s =
      if -999 ≤ yearOf (when / 86400) ∧ yearOf (when / 86400) ≤ 9999 then some when else none := by
    split
    next inRange => exact parse_formatUtcTimestamp formatted inRange.1 inRange.2
    next outside => exact parse_formatUtcTimestamp_none formatted (by omega)
  refine ⟨read, fun env item input map named => ?_⟩
  rw [invokeReset_utc env map named, read]
  split <;> rfl

private def epoch : CString := CString.ofBuffer (text "1970-01-01T00:00:00Z")

private theorem epoch_formatted : formatUtcTimestamp 32 0 = some epoch := by
  decide +kernel

/-- The reset of a server at the epoch. -/
private def epochReset : PostItem where
  iid := .sidStrKey (CString.ofBuffer (text "myserver"))
  sid := defaultOperationSids.resetActionSid
  value := some (.hashmap (insertCoreconfHashMap createCoreconfHashmap 1 (some (CoreconfValueT.string epoch))).2)

theorem epoch_round_trip :
    parseUtcTimestamp epoch =
      (if -999 ≤ yearOf (0 / 86400) ∧ yearOf (0 / 86400) ≤ 9999 then some 0 else none) ∧
    invokeReset bareEnvironment.utc epochReset = resetFrom bareEnvironment epochReset
      (if -999 ≤ yearOf (0 / 86400) ∧ yearOf (0 / 86400) ≤ 9999 then 0 else bareEnvironment.time) :=
  ⟨(timestamp_round_trip epoch_formatted).1,
    (timestamp_round_trip epoch_formatted).2 bareEnvironment epochReset _ rfl rfl⟩

end Coreconf
