import Coreconf.Delete
import Coreconf.Fingerprint
import Mathlib.Data.List.DropRight

set_option autoImplicit false

/- delete.c: the SIDs read off the query of a DELETE. -/
namespace Coreconf

def DELETE_MAX_SIDS : Nat := 32

/-- The buffer that a query is copied to, without its last byte. -/
def deleteQueryRoom : Nat := 511

def ampersand : UInt8 := 0x26

/-- `strtoull` to the base 10; `none` is an end pointer that has not moved. -/
def strtoull (bytes : List UInt8) : Option UInt64 := scanU64 bytes

/-- What is behind the next separator, or nothing. -/
def afterAmpersand (tok : List UInt8) : List UInt8 := (tok.dropWhile (· ≠ ampersand)).drop 1

theorem afterAmpersand_le (tok : List UInt8) : (afterAmpersand tok).length ≤ tok.length :=
  ((List.drop_sublist _ _).trans (List.dropWhile_sublist _)).length_le

theorem afterAmpersand_lt {tok : List UInt8} (nonempty : tok ≠ []) : (afterAmpersand tok).length < tok.length := by
  have dropped := (List.dropWhile_sublist (p := (· ≠ ampersand)) (l := tok)).length_le
  have positive := List.length_pos_iff.mpr nonempty
  rw [afterAmpersand, List.length_drop]
  omega

theorem afterAmpersand_drop_lt {tok : List UInt8} (nonempty : tok ≠ []) :
    (afterAmpersand (tok.drop 2)).length < tok.length := by
  have positive := List.length_pos_iff.mpr nonempty
  have le := afterAmpersand_le (tok.drop 2)
  rw [List.length_drop] at le
  by_cases long : 2 ≤ tok.length
  · omega
  · obtain ⟨byte, single⟩ : ∃ byte, tok = [byte] := List.length_eq_one_iff.mp (by omega)
    rw [single]
    exact Nat.zero_lt_one

/-- The loop over the buffer from `tok` on, with so many SIDs still to be written. -/
def deleteTokens (left : Nat) (tok : List UInt8) : List UInt64 :=
  if tok = [] ∨ left = 0 then []
  else if 0x3D ∉ tok then []
  else if tok.takeWhile (· ≠ 0x3D) = [0x6B] then
    match strtoull ((tok.drop 2).takeWhile (· ≠ ampersand)) with
    | some sid => sid :: deleteTokens (left - 1) (afterAmpersand (tok.drop 2))
    | none => deleteTokens left (afterAmpersand (tok.drop 2))
  else deleteTokens left (afterAmpersand tok)
termination_by tok.length
decreasing_by
  all_goals have nonempty : tok ≠ [] := by tauto
  · exact afterAmpersand_drop_lt nonempty
  · exact afterAmpersand_drop_lt nonempty
  · exact afterAmpersand_lt nonempty

/-- The SIDs that are written; the source returns how many. -/
def parseDeleteQuery (query : List UInt8) (maxSids : Nat) : List UInt64 :=
  if query = [] ∨ maxSids = 0 then [] else deleteTokens maxSids (query.take deleteQueryRoom)

/-- The SID of a parameter, if it is a `k` with a number. -/
def kParameter (parameter : List UInt8) : Option UInt64 :=
  if parameter.take 2 = [0x6B, 0x3D] then strtoull (parameter.drop 2) else none

/-- The SIDs of the `k` parameters of a query. -/
def kParameters (query : List UInt8) : List UInt64 := (query.splitOn ampersand).filterMap kParameter

@[simp] theorem kParameter_nil : kParameter [] = none := rfl

@[simp] theorem kParameters_nil : kParameters [] = [] := rfl

/-- The first parameter, then those behind the first separator. -/
theorem kParameters_step (tok : List UInt8) :
    kParameters tok = (kParameter (tok.takeWhile (· ≠ ampersand))).toList ++ kParameters (afterAmpersand tok) := by
  have front : ampersand ∉ tok.takeWhile (· ≠ ampersand) := fun member => by
    simpa using List.mem_takeWhile_imp member
  have split := List.takeWhile_append_dropWhile (p := (· ≠ ampersand)) (l := tok)
  rw [kParameters, afterAmpersand]
  cases behind : tok.dropWhile (· ≠ ampersand) with
  | nil =>
      rw [behind, List.append_nil] at split
      rw [split] at front ⊢
      rw [List.splitOn_eq_singleton front, List.drop_nil, kParameters_nil, List.append_nil, List.filterMap_cons]
      cases kParameter tok <;> rfl
  | cons byte rest =>
      have found : byte = ampersand := by
        have head := List.head?_dropWhile_not (p := (· ≠ ampersand)) (l := tok)
        rw [behind] at head
        simpa using head
      rw [behind, found] at split
      have parts := List.splitOn_append_cons_self_of_not_mem front rest
      rw [split] at parts
      rw [parts, List.filterMap_cons, List.drop_one, List.tail_cons, kParameters]
      cases kParameter (tok.takeWhile (· ≠ ampersand)) <;> rfl

/-- Without an equals sign there is no parameter, by induction on what is left. -/
theorem kParameters_unassigned {tok : List UInt8} (unassigned : 0x3D ∉ tok) : kParameters tok = [] := by
  induction length : tok.length using Nat.strongRecOn generalizing tok with
  | ind n ih =>
      by_cases empty : tok = []
      · rw [empty]
        rfl
      · have first : kParameter (tok.takeWhile (· ≠ ampersand)) = none := by
          refine if_neg fun key => unassigned ?_
          have member : (0x3D : UInt8) ∈ (tok.takeWhile (· ≠ ampersand)).take 2 := by
            rw [key]
            decide
          exact (List.takeWhile_sublist _).subset (List.mem_of_mem_take member)
        have later : (0x3D : UInt8) ∉ afterAmpersand tok := fun member =>
          unassigned ((List.dropWhile_sublist _).subset (List.mem_of_mem_drop member))
        rw [kParameters_step, first, ih _ (length ▸ afterAmpersand_lt empty) later rfl]
        rfl

/-- A key of one letter is the first byte, with the equals sign behind it. -/
theorem assigned_k {tok : List UInt8} (assigned : 0x3D ∈ tok) (key : tok.takeWhile (· ≠ 0x3D) = [0x6B]) :
    tok = 0x6B :: 0x3D :: tok.drop 2 := by
  cases tok with
  | nil => cases key
  | cons first rest =>
      have other : first ≠ 0x3D := by
        rintro rfl
        cases key
      rw [List.takeWhile_cons_of_pos (by simpa using other), List.cons.injEq] at key
      obtain ⟨rfl, nothing⟩ := key
      have inRest : (0x3D : UInt8) ∈ rest := by simpa using assigned
      cases rest with
      | nil => cases inRest
      | cons second later =>
          have sign : second = 0x3D := by
            by_contra different
            rw [List.takeWhile_cons_of_pos (by simpa using different)] at nothing
            cases nothing
          rw [sign]
          rfl

/-- Such a key begins a `k` parameter, and the walk goes on behind its separator. -/
theorem assigned_parameter {tok : List UInt8} (split : tok = 0x6B :: 0x3D :: tok.drop 2) :
    kParameter (tok.takeWhile (· ≠ ampersand)) = strtoull ((tok.drop 2).takeWhile (· ≠ ampersand)) ∧
      afterAmpersand tok = afterAmpersand (tok.drop 2) := by
  constructor
  · conv_lhs => rw [split]
    rfl
  · conv_lhs => rw [split]
    rfl

/-- A parameter that begins so has a key of one letter. -/
theorem named_k {tok : List UInt8} (named : (tok.takeWhile (· ≠ ampersand)).take 2 = [0x6B, 0x3D]) :
    tok.takeWhile (· ≠ 0x3D) = [0x6B] := by
  cases tok with
  | nil => cases named
  | cons first rest =>
      by_cases separated : first = ampersand
      · rw [List.takeWhile_cons_of_neg (by simpa using separated)] at named
        cases named
      · rw [List.takeWhile_cons_of_pos (by simpa using separated), List.take_succ_cons,
          List.cons.injEq] at named
        obtain ⟨rfl, second⟩ := named
        cases rest with
        | nil => cases second
        | cons sign later =>
            by_cases separated : sign = ampersand
            · rw [List.takeWhile_cons_of_neg (by simpa using separated)] at second
              cases second
            · rw [List.takeWhile_cons_of_pos (by simpa using separated)] at second
              cases second
              rfl

/-- The walk from separator to separator reads the parameters, until it has enough SIDs. -/
theorem deleteTokens_eq (left : Nat) (tok : List UInt8) : deleteTokens left tok = (kParameters tok).take left := by
  fun_induction deleteTokens left tok with
  | case1 left tok done =>
      obtain rfl | rfl := done
      · simp
      · simp
  | case2 left tok more unassigned => rw [kParameters_unassigned unassigned, List.take_nil]
  | case3 left tok more assigned key sid read ih =>
      obtain ⟨first, behind⟩ := assigned_parameter (assigned_k (Decidable.not_not.mp assigned) key)
      have positive : left ≠ 0 := fun zero => more (Or.inr zero)
      obtain ⟨k, rfl⟩ := Nat.exists_eq_succ_of_ne_zero positive
      rw [kParameters_step, first, read, behind, ih]
      rfl
  | case4 left tok more assigned key read ih =>
      obtain ⟨first, behind⟩ := assigned_parameter (assigned_k (Decidable.not_not.mp assigned) key)
      rw [kParameters_step, first, read, behind, ih]
      rfl
  | case5 left tok more assigned key ih =>
      have first : kParameter (tok.takeWhile (· ≠ ampersand)) = none := if_neg fun named => key (named_k named)
      rw [kParameters_step, first, ih]
      rfl

/-- What is kept of a query is read parameter by parameter. -/
theorem parseDeleteQuery_eq (query : List UInt8) (maxSids : Nat) :
    parseDeleteQuery query maxSids = (kParameters (query.take deleteQueryRoom)).take maxSids := by
  rw [parseDeleteQuery]
  split
  next nothing =>
      obtain rfl | rfl := nothing
      · simp
      · simp
  next => exact deleteTokens_eq maxSids _

section Written

/-- A parameter as a client writes it. -/
def deleteParameter (sid : UInt64) : List UInt8 := 0x6B :: 0x3D :: decimal sid.toNat

/-- `k=s1&k=s2&...` -/
def deleteQuery (sids : List UInt64) : List UInt8 := [ampersand].intercalate (sids.map deleteParameter)

theorem deleteQuery_cons (sid : UInt64) {rest : List UInt64} (more : rest ≠ []) :
    deleteQuery (sid :: rest) = deleteParameter sid ++ ampersand :: deleteQuery rest := by
  rw [deleteQuery, List.map_cons, List.intercalate_cons_of_ne_nil (by simpa using more), List.append_assoc]
  rfl

theorem deleteParameter_unseparated (sid : UInt64) : ampersand ∉ deleteParameter sid := by
  intro member
  simp only [deleteParameter, List.mem_cons] at member
  obtain key | sign | digit := member
  · cases key
  · cases sign
  · exact absurd (decimal_isDigit digit) (by decide)

theorem strtoull_digits {digits : List UInt8} (nonempty : digits ≠ []) (all : ∀ byte ∈ digits, isDigit byte = true)
    (bound : digitsValue digits < 2 ^ 64) : strtoull digits = some (UInt64.ofNat (digitsValue digits)) := by
  have read := @scanU64_digits digits [] nonempty all (by simp) bound
  rwa [List.append_nil] at read

theorem kParameter_written (sid : UInt64) : kParameter (deleteParameter sid) = some sid := by
  have bound : digitsValue (decimal sid.toNat) < 2 ^ 64 := (digitsValue_decimal _).trans_lt sid.toNat_lt
  have read := strtoull_digits (decimal_ne_nil _) (fun _ => decimal_isDigit) bound
  rw [digitsValue_decimal, UInt64.ofNat_toNat] at read
  exact read

theorem digitsValue_lt {digits : List UInt8} (all : ∀ byte ∈ digits, isDigit byte = true) :
    digitsValue digits < 10 ^ digits.length := by
  induction digits using List.reverseRecOn with
  | nil => decide
  | append_singleton digits digit ih =>
      have high := ih fun byte member => all byte (List.mem_append_left _ member)
      have low : digit.toNat - 0x30 < 10 := by
        have range := all digit (List.mem_append_right _ (List.mem_singleton_self _))
        simp only [isDigit, Bool.and_eq_true, decide_eq_true_eq, UInt8.le_iff_toNat_le] at range
        have top : (0x39 : UInt8).toNat = 0x39 := rfl
        omega
      have value : digitsValue (digits ++ [digit]) = 10 * digitsValue digits + (digit.toNat - 0x30) := by
        rw [digitsValue, List.foldl_append]
        rfl
      rw [value, List.length_append, List.length_singleton, Nat.pow_succ]
      omega

/-- Some of the digits of a number are those of a smaller one. -/
theorem digitsValue_cut {n m : Nat} (cut : m < (decimal n).length) (some_left : m ≠ 0) :
    digitsValue ((decimal n).take m) < n := by
  have positive : n ≠ 0 := by
    rintro rfl
    have single : (decimal 0).length = 1 := rfl
    omega
  have length : (decimal n).length = (Nat.digits 10 n).length := by
    rw [decimal, if_neg positive, List.length_map, List.length_reverse]
  have digits : ∀ byte ∈ (decimal n).take m, isDigit byte = true := fun _ member =>
    decimal_isDigit (List.mem_of_mem_take member)
  have small := digitsValue_lt digits
  rw [List.length_take, Nat.min_eq_left cut.le] at small
  have large := Nat.base_pow_length_digits_le 10 n (by decide) positive
  have power : 10 ^ (m + 1) ≤ 10 ^ (Nat.digits 10 n).length := Nat.pow_le_pow_right (by decide) (by omega)
  rw [Nat.pow_succ] at power
  omega

/-- A parameter that is cut names no SID, or another one. -/
theorem kParameter_cut {sid : UInt64} {m : Nat} (cut : m < (deleteParameter sid).length) :
    kParameter ((deleteParameter sid).take m) ≠ some sid := by
  have number : (deleteParameter sid).length = (decimal sid.toNat).length + 2 := rfl
  by_cases short : m ≤ 2
  · have nothing : kParameter ((deleteParameter sid).take m) = none := by
      interval_cases m <;> rfl
    rw [nothing]
    exact fun same => by cases same
  · obtain ⟨k, rfl⟩ : ∃ k, m = k + 3 := ⟨m - 3, by omega⟩
    have some_left : (decimal sid.toNat).take (k + 1) ≠ [] := by
      rw [Ne, List.take_eq_nil_iff]
      exact fun nothing => nothing.elim (Nat.succ_ne_zero k) (decimal_ne_nil _)
    have digits : ∀ byte ∈ (decimal sid.toNat).take (k + 1), isDigit byte = true := fun _ member =>
      decimal_isDigit (List.mem_of_mem_take member)
    have smaller := digitsValue_cut (n := sid.toNat) (m := k + 1) (by omega) (Nat.succ_ne_zero k)
    have bound := smaller.trans sid.toNat_lt
    have read : kParameter ((deleteParameter sid).take (k + 3)) =
        some (UInt64.ofNat (digitsValue ((decimal sid.toNat).take (k + 1)))) :=
      strtoull_digits some_left digits bound
    rw [read]
    intro same
    have equal := congrArg UInt64.toNat (Option.some.inj same)
    rw [UInt64.toNat_ofNat', Nat.mod_eq_of_lt bound] at equal
    omega

theorem kParameters_single {parameter : List UInt8} (unseparated : ampersand ∉ parameter) :
    kParameters parameter = (kParameter parameter).toList := by
  rw [kParameters, List.splitOn_eq_singleton unseparated, List.filterMap_cons]
  cases kParameter parameter <;> rfl

theorem kParameters_append (front behind : List UInt8) :
    kParameters (front ++ ampersand :: behind) = kParameters front ++ kParameters behind := by
  rw [kParameters, List.splitOn_append_cons_self, List.filterMap_append]
  rfl

theorem kParameters_cons (sid : UInt64) (behind : List UInt8) :
    kParameters (deleteParameter sid ++ ampersand :: behind) = sid :: kParameters behind := by
  rw [kParameters_append, kParameters_single (deleteParameter_unseparated sid), kParameter_written]
  rfl

/-- A whole query names its SIDs. -/
theorem kParameters_deleteQuery (sids : List UInt64) : kParameters (deleteQuery sids) = sids := by
  induction sids with
  | nil => rfl
  | cons sid rest ih =>
      by_cases more : rest = []
      · subst more
        have single : deleteQuery [sid] = deleteParameter sid := List.intercalate_singleton
        rw [single, kParameters_single (deleteParameter_unseparated sid), kParameter_written]
        rfl
      · rw [deleteQuery_cons sid more, kParameters_cons, ih]

/-- One that is cut does not, by induction on the SIDs that are left whole. -/
theorem kParameters_cut {sids : List UInt64} {m k : Nat} (cut : m < (deleteQuery sids).length)
    (enough : sids.length ≤ k) : (kParameters ((deleteQuery sids).take m)).take k ≠ sids := by
  induction sids generalizing m k with
  | nil => cases cut
  | cons sid rest ih =>
      obtain ⟨k, rfl⟩ : ∃ j, k = j + 1 := ⟨k - 1, by rw [List.length_cons] at enough; omega⟩
      have unseparated : ∀ m, ampersand ∉ (deleteParameter sid).take m := fun m member =>
        deleteParameter_unseparated sid (List.mem_of_mem_take member)
      by_cases more : rest = []
      · subst more
        have single : deleteQuery [sid] = deleteParameter sid := List.intercalate_singleton
        rw [single] at cut ⊢
        rw [kParameters_single (unseparated m)]
        have different := kParameter_cut cut
        cases read : kParameter ((deleteParameter sid).take m) with
        | none => simp
        | some other =>
            rw [read] at different
            simpa using different
      · rw [deleteQuery_cons sid more] at cut ⊢
        by_cases inside : m ≤ (deleteParameter sid).length
        · rw [List.take_append_of_le_length inside, kParameters_single (unseparated m)]
          intro same
          have lengths := congrArg List.length same
          have positive := List.length_pos_iff.mpr more
          have few : (kParameter ((deleteParameter sid).take m)).toList.length ≤ 1 := by
            cases kParameter ((deleteParameter sid).take m) <;> simp
          rw [List.length_take, List.length_cons] at lengths
          omega
        · obtain ⟨j, rfl⟩ : ∃ j, m = (deleteParameter sid).length + (j + 1) :=
            ⟨m - (deleteParameter sid).length - 1, by omega⟩
          rw [List.length_append, List.length_cons] at cut
          rw [List.take_length_add_append, List.take_succ_cons, kParameters_cons, List.take_succ_cons]
          intro same
          exact ih (by omega) (by simpa using enough) (List.cons.inj same).2

end Written

section Cut

/-- The last parameter of a query. -/
def lastParameter (query : List UInt8) : List UInt8 := query.rtakeWhile (· ≠ ampersand)

/-- The parameters before it. -/
def earlierParameters (query : List UInt8) : List UInt8 := (query.rdropWhile (· ≠ ampersand)).dropLast

/-- A query is its last parameter, or that behind a separator. -/
theorem lastParameter_split (query : List UInt8) :
    ampersand ∉ lastParameter query ∧
      ((earlierParameters query = [] ∧ query = lastParameter query) ∨
        query = earlierParameters query ++ ampersand :: lastParameter query) := by
  have parts : query.rdropWhile (· ≠ ampersand) ++ lastParameter query = query :=
    List.rdropWhile_append_rtakeWhile
  refine ⟨fun member => by simpa using List.mem_rtakeWhile_imp member, ?_⟩
  by_cases first : query.rdropWhile (· ≠ ampersand) = []
  · refine Or.inl ⟨by rw [earlierParameters, first]; rfl, ?_⟩
    rw [first, List.nil_append] at parts
    exact parts.symm
  · have separator : (query.rdropWhile (· ≠ ampersand)).getLast first = ampersand := by
      simpa using List.rdropWhile_last_not (· ≠ ampersand) query first
    have whole := List.dropLast_append_getLast first
    rw [separator] at whole
    refine Or.inr ?_
    conv_lhs => rw [← parts, ← whole, List.append_assoc]
    rfl

theorem kParameters_last (query : List UInt8) :
    kParameters query = kParameters (earlierParameters query) ++ (kParameter (lastParameter query)).toList := by
  obtain ⟨unseparated, ⟨first, whole⟩ | split⟩ := lastParameter_split query
  · rw [first, kParameters_nil, List.nil_append, ← kParameters_single unseparated, ← whole]
  · conv_lhs => rw [split, kParameters_append, kParameters_single unseparated]

/-- The parameters before the last are complete, whatever is cut off behind. -/
theorem earlierParameters_complete (query rest : List UInt8) :
    kParameters (earlierParameters query) <+: kParameters (query ++ rest) := by
  obtain ⟨-, ⟨first, -⟩ | split⟩ := lastParameter_split query
  · rw [first]
    exact List.nil_prefix
  · have whole : query ++ rest = earlierParameters query ++ ampersand :: (lastParameter query ++ rest) := by
      conv_lhs => rw [split, List.append_assoc]
      rfl
    rw [whole, kParameters_append]
    exact List.prefix_append _ _

theorem parsed_complete_iff (query : List UInt8) (maxSids : Nat) :
    (∀ sid ∈ parseDeleteQuery query maxSids, sid ∈ kParameters query) ↔
      query.length ≤ deleteQueryRoom ∨
      maxSids ≤ (kParameters (earlierParameters (query.take deleteQueryRoom))).length ∨
      ∀ sid, kParameter (lastParameter (query.take deleteQueryRoom)) = some sid → sid ∈ kParameters query := by
  have complete := earlierParameters_complete (query.take deleteQueryRoom) (query.drop deleteQueryRoom)
  rw [List.take_append_drop] at complete
  rw [parseDeleteQuery_eq, kParameters_last (query.take deleteQueryRoom)]
  constructor
  · intro each
    by_cases reached : maxSids ≤ (kParameters (earlierParameters (query.take deleteQueryRoom))).length
    · exact Or.inr (Or.inl reached)
    · refine Or.inr (Or.inr fun sid read => each sid ?_)
      rw [read, List.take_of_length_le (by simp; omega)]
      simp
  · rintro (short | reached | named) sid member
    · rw [← kParameters_last, List.take_of_length_le short] at member
      exact List.mem_of_mem_take member
    · rw [List.take_append_of_le_length reached] at member
      exact complete.subset (List.mem_of_mem_take member)
    · obtain earlier | last := List.mem_append.mp (List.mem_of_mem_take member)
      · exact complete.subset earlier
      · exact named sid (Option.mem_toList.mp last)

end Cut

/-- A list of SIDs is read back exactly if its query fits into the buffer. Of any query no
other SIDs are read than those of its parameters exactly if it fits, or there are enough of
them before the last parameter that is kept, or this, cut or not, names none or one of them. -/
theorem delete_query_iff (sids : List UInt64) (query : List UInt8) (maxSids : Nat) :
    (sids.length ≤ DELETE_MAX_SIDS →
      (parseDeleteQuery (deleteQuery sids) DELETE_MAX_SIDS = sids ↔
        (deleteQuery sids).length ≤ deleteQueryRoom)) ∧
    ((∀ sid ∈ parseDeleteQuery query maxSids, sid ∈ kParameters query) ↔
      query.length ≤ deleteQueryRoom ∨
      maxSids ≤ (kParameters (earlierParameters (query.take deleteQueryRoom))).length ∨
      ∀ sid, kParameter (lastParameter (query.take deleteQueryRoom)) = some sid → sid ∈ kParameters query) := by
  refine ⟨fun few => ⟨fun parsed => ?_, fun fits => ?_⟩, parsed_complete_iff query maxSids⟩
  · by_contra long
    rw [parseDeleteQuery_eq] at parsed
    exact kParameters_cut (Nat.not_le.mp long) few parsed
  · rw [parseDeleteQuery_eq, List.take_of_length_le fits, kParameters_deleteQuery, List.take_of_length_le few]

/-- Of 32 SIDs of 20 digits 22 are read, and then the SID 100, of which nothing was said. -/
theorem delete_query_cut :
    parseDeleteQuery (deleteQuery (List.replicate 32 10000000000000000000)) DELETE_MAX_SIDS =
        List.replicate 22 10000000000000000000 ++ [100] ∧
      100 ∉ kParameters (deleteQuery (List.replicate 32 10000000000000000000)) := by
  rw [kParameters_deleteQuery, parseDeleteQuery_eq]
  exact ⟨by decide +kernel, by decide⟩

end Coreconf
