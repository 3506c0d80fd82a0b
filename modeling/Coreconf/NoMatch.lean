import Coreconf.PathLookup

set_option autoImplicit false

/- The search along a path at the arrays with key leaves: which element it selects, by the words
that it reads at the leaves and the values that it pops, and where it goes on with one that was
not requested, or with the array. -/
namespace Coreconf

open CoreconfValueT

/-- What an element holds at a key leaf, as the search reads it: as a word, with 0 for what is
no number. -/
def leafWord (sid leaf : Int64) : CoreconfValueT → Option UInt64
  | .hashmap map =>
      (getCoreconfHashMap map (leaf.toUInt64 - sid.toUInt64)).bind getCoreconfValueAsUint64
  | _ => none

/-- The values that are popped: the request keys from the last to the first, then zeros. -/
def poppedValues (count : Nat) (requestKeys : DynamicLongListT) : List Int64 :=
  (requestKeys.reverse ++ List.replicate count 0).take count

/-- The element is one that the search takes for the requested one. -/
def agreesInWords (sid : Int64) (leaves requestKeys : DynamicLongListT) (element : CoreconfValueT) : Bool :=
  leaves.Nodup && leaves.length < 2 ^ 31 &&
    (leaves.zip (poppedValues leaves.length requestKeys)).all fun asked =>
      leafWord sid asked.1 element = some asked.2.toUInt64

theorem agreesInWords_iff {sid : Int64} {leaves requestKeys : DynamicLongListT} {element : CoreconfValueT} :
    agreesInWords sid leaves requestKeys element ↔ leaves.Nodup ∧ leaves.length < 2 ^ 31 ∧
      ∀ asked ∈ leaves.zip (poppedValues leaves.length requestKeys),
        leafWord sid asked.1 element = some asked.2.toUInt64 := by
  simp only [agreesInWords, Bool.and_eq_true, decide_eq_true_eq, List.all_eq_true, and_assoc]

/-- The request keys after a selection. Where none would be left, they are all there again. -/
def keysAfter (count : Nat) (requestKeys : DynamicLongListT) : DynamicLongListT :=
  if requestKeys.length ≤ count then requestKeys else requestKeys.take (requestKeys.length - count)

theorem poppedValues_length (count : Nat) (requestKeys : DynamicLongListT) :
    (poppedValues count requestKeys).length = count := by
  simp [poppedValues]

theorem poppedValues_succ (count : Nat) (requestKeys : DynamicLongListT) :
    poppedValues (count + 1) requestKeys =
      requestKeys.getLast?.getD 0 :: poppedValues count requestKeys.dropLast := by
  have enough : ∀ front : List Int64, (front ++ List.replicate (count + 1) 0).take count =
      (front ++ List.replicate count 0).take count := by
    intro front
    rw [List.take_append, List.take_append, List.take_replicate, List.take_replicate]
    congr 2
    omega
  rcases List.eq_nil_or_concat requestKeys with rfl | ⟨front, last, rfl⟩
  · simp [poppedValues, List.replicate_succ]
  · rw [poppedValues, poppedValues, List.concat_eq_append, List.reverse_append, List.dropLast_concat,
      List.getLast?_concat, List.reverse_singleton, List.singleton_append, List.cons_append, List.take_succ_cons,
      enough]
    rfl

theorem matchSidKey_word {element : CoreconfValueT} {sid leaf : Int64} {requestKeys matched : DynamicLongListT}
    {progress : Option DynamicLongListT × DynamicLongListT}
    (checked : matchSidKey element sid (some requestKeys, matched) leaf = some progress) :
    progress = (some requestKeys.dropLast,
      if leafWord sid leaf element = some (requestKeys.getLast?.getD 0).toUInt64 then addUniqueLong matched leaf
      else matched) := by
  cases element with
  | hashmap map =>
      rw [matchSidKey] at checked
      split at checked
      · cases checked
      · rename_i word read
        rw [popLong_eq] at checked
        cases checked
        rw [leafWord, read]
        simp only [Option.some.injEq]
  | _ => cases checked

/-- The loop over the leaves pops one value for each, and gathers the leaves that agree, each
once. -/
theorem foldlM_matchSidKey_words {element : CoreconfValueT} {sid : Int64}
    {leaves requestKeys matched gathered : DynamicLongListT} {clone : Option DynamicLongListT}
    (checked : leaves.foldlM (matchSidKey element sid) (some requestKeys, matched) = some (clone, gathered))
    (distinct : matched.Nodup) :
    clone = some (requestKeys.take (requestKeys.length - leaves.length)) ∧ gathered.Nodup ∧
      ∃ new, gathered = matched ++ new ∧
        new.Sublist (((leaves.zip (poppedValues leaves.length requestKeys)).filter fun asked =>
          leafWord sid asked.1 element = some asked.2.toUInt64).map Prod.fst) := by
  induction leaves generalizing requestKeys matched with
  | nil =>
      cases checked
      refine ⟨?_, distinct, [], ?_, List.nil_sublist _⟩
      · rw [List.length_nil, Nat.sub_zero, List.take_length]
      · rw [List.append_nil]
  | cons leaf leaves ih =>
      rw [List.foldlM_cons] at checked
      obtain ⟨progress, first, rest⟩ := Option.bind_eq_some_iff.mp checked
      rw [matchSidKey_word first] at rest
      have left : requestKeys.dropLast.take (requestKeys.dropLast.length - leaves.length) =
          requestKeys.take (requestKeys.length - (leaf :: leaves).length) := by
        rw [List.dropLast_eq_take, List.take_take, List.length_take, List.length_cons]
        congr 1
        omega
      rw [List.length_cons, poppedValues_succ, List.zip_cons_cons, List.filter_cons]
      by_cases agree : leafWord sid leaf element = some (requestKeys.getLast?.getD 0).toUInt64
      · rw [if_pos agree] at rest
        rw [if_pos (decide_eq_true agree), List.map_cons]
        by_cases old : leaf ∈ matched
        · rw [addUniqueLong, if_pos old] at rest
          obtain ⟨cloned, once, new, same, sublist⟩ := ih rest distinct
          exact ⟨cloned.trans (congrArg some left), once, new, same, sublist.cons leaf⟩
        · rw [addUniqueLong, if_neg old, addLong] at rest
          have distinct' : (matched ++ [leaf]).Nodup := by
            rw [← List.concat_eq_append]
            exact distinct.concat old
          obtain ⟨cloned, once, new, same, sublist⟩ := ih rest distinct'
          refine ⟨cloned.trans (congrArg some left), once, leaf :: new, ?_, sublist.cons_cons leaf⟩
          rw [same, List.append_assoc, List.singleton_append]
      · rw [if_neg agree] at rest
        rw [if_neg (by simpa using agree)]
        obtain ⟨cloned, once, new, same, sublist⟩ := ih rest distinct
        exact ⟨cloned.trans (congrArg some left), once, new, same, sublist⟩

/-- Where every leaf agrees, all that are new are gathered. -/
theorem foldlM_matchSidKey_all {element : CoreconfValueT} {sid : Int64}
    {leaves requestKeys matched gathered : DynamicLongListT} {clone : Option DynamicLongListT}
    (checked : leaves.foldlM (matchSidKey element sid) (some requestKeys, matched) = some (clone, gathered))
    (agree : ∀ asked ∈ leaves.zip (poppedValues leaves.length requestKeys),
      leafWord sid asked.1 element = some asked.2.toUInt64)
    (distinct : (matched ++ leaves).Nodup) : gathered = matched ++ leaves := by
  induction leaves generalizing requestKeys matched with
  | nil =>
      cases checked
      rw [List.append_nil]
  | cons leaf leaves ih =>
      rw [List.foldlM_cons] at checked
      obtain ⟨progress, first, rest⟩ := Option.bind_eq_some_iff.mp checked
      rw [List.length_cons, poppedValues_succ, List.zip_cons_cons, List.forall_mem_cons] at agree
      have new : leaf ∉ matched := by
        intro member
        exact List.disjoint_of_nodup_append distinct member List.mem_cons_self
      rw [matchSidKey_word first, if_pos agree.1, addUniqueLong, if_neg new, addLong] at rest
      rw [ih rest agree.2 (by simpa using distinct), List.append_assoc, List.singleton_append]

/-- A loop to a size that is no int comes to fewer leaves. -/
theorem loopedSidKeys_fewer {leaves : DynamicLongListT} (many : 2 ^ 31 ≤ leaves.length) :
    (loopedSidKeys leaves).length < leaves.length := by
  have fits := (Int32.ofNat leaves.length).toInt_lt
  rw [loopedSidKeys, List.length_take]
  omega

theorem cloneDynamicLongList_full {original : DynamicLongListT} (nonempty : original ≠ [])
    (cloned : Option DynamicLongListT) : cloneDynamicLongList original cloned = some original := by
  rw [cloneDynamicLongList, if_neg]
  simpa using nonempty

theorem compareDynamicLongList_length {leaves gathered : DynamicLongListT}
    (equal : compareDynamicLongList leaves gathered = Bool.true) : gathered.length = leaves.length := by
  rw [compareDynamicLongList] at equal
  split at equal
  · cases equal
  · split at equal
    · cases equal
    · omega

section Element

variable {element : CoreconfValueT} {sid : Int64} {leaves requestKeys : DynamicLongListT}
  {clone : Option DynamicLongListT} {gathered : DynamicLongListT}

/-- Before request keys that are there, the leaves that are gathered are all the leaves exactly if
the element agrees. -/
theorem compareDynamicLongList_gathered (nonempty : leaves ≠ [])
    (checked : (loopedSidKeys leaves).foldlM (matchSidKey element sid) (some requestKeys, []) =
      some (clone, gathered)) :
    compareDynamicLongList leaves gathered ↔ agreesInWords sid leaves requestKeys element := by
  rw [agreesInWords_iff]
  constructor
  · intro equal
    have size := compareDynamicLongList_length equal
    obtain ⟨-, once, new, rfl, sublist⟩ := foldlM_matchSidKey_words checked List.nodup_nil
    have counted := sublist.length_le
    have filtered := List.length_filter_le (fun asked : Int64 × Int64 =>
      decide (leafWord sid asked.1 element = some asked.2.toUInt64))
        ((loopedSidKeys leaves).zip (poppedValues (loopedSidKeys leaves).length requestKeys))
    rw [List.length_zip, poppedValues_length, Nat.min_self] at filtered
    rw [List.length_map] at counted
    have few : leaves.length < 2 ^ 31 := by
      by_contra many
      have fewer := loopedSidKeys_fewer (Nat.le_of_not_lt many)
      omega
    rw [loopedSidKeys_eq few] at sublist counted filtered
    have agree := List.length_filter_eq_length_iff.mp (show _ = (leaves.zip _).length by
      rw [List.length_zip, poppedValues_length, Nat.min_self]
      exact Nat.le_antisymm filtered (size ▸ counted))
    have same := sublist.eq_of_length (by
      rw [List.length_map]
      omega)
    rw [List.filter_eq_self.mpr agree, List.map_fst_zip (by rw [poppedValues_length])] at same
    exact ⟨same ▸ once, few, by simpa using agree⟩
  · rintro ⟨distinct, few, agree⟩
    rw [loopedSidKeys_eq few] at checked
    rw [foldlM_matchSidKey_all checked agree distinct]
    exact (compareDynamicLongList_sublist (List.Sublist.refl leaves) nonempty).mpr rfl

/-- What the check of an element says and what it leaves. -/
theorem element_checked (nonempty : leaves ≠ [])
    (checked : (loopedSidKeys leaves).foldlM (matchSidKey element sid) (cloneDynamicLongList requestKeys none, []) =
      some (clone, gathered)) :
    compareDynamicLongList leaves gathered = agreesInWords sid leaves requestKeys element ∧
      (agreesInWords sid leaves requestKeys element = Bool.true →
        (clone.bind fun clone => cloneDynamicLongList clone (some requestKeys)) =
          some (keysAfter leaves.length requestKeys)) := by
  by_cases asked : requestKeys = []
  · subst asked
    -- The clone is not initialised, so no leaf has been looked at.
    have none : loopedSidKeys leaves = [] := by
      cases looped : loopedSidKeys leaves with
      | nil => rfl
      | cons leaf later =>
          rw [looped, List.foldlM_cons] at checked
          cases element <;> cases checked
    have many : ¬ leaves.length < 2 ^ 31 := by
      intro few
      exact nonempty ((loopedSidKeys_eq few).symm.trans none)
    have disagree : agreesInWords sid leaves [] element = Bool.false := by
      apply Bool.eq_false_iff.mpr
      intro agree
      exact many (agreesInWords_iff.mp agree).2.1
    rw [none] at checked
    cases checked
    rw [disagree]
    constructor
    · exact if_pos (Or.inr rfl)
    · intro impossible
      cases impossible
  · rw [cloneDynamicLongList_full asked] at checked
    refine ⟨Bool.eq_iff_iff.mpr (compareDynamicLongList_gathered nonempty checked), ?_⟩
    intro agree
    rw [agreesInWords_iff] at agree
    rw [loopedSidKeys_eq agree.2.1] at checked
    rw [(foldlM_matchSidKey_words checked List.nodup_nil).1, Option.bind_some, keysAfter]
    split
    · rename_i few
      rw [Nat.sub_eq_zero_of_le few]
      rfl
    · rename_i more
      apply cloneDynamicLongList_full
      rw [← List.length_pos_iff, List.length_take]
      omega

end Element

/-- The first element that agrees is selected. -/
theorem selectElement_agreeing {sid : Int64} {leaves requestKeys left : DynamicLongListT}
    {elements : List CoreconfValueT} {found : Option CoreconfValueT} (nonempty : leaves ≠ [])
    (selected : selectElement leaves sid requestKeys elements = some (found, left)) :
    found = elements.find? (agreesInWords sid leaves requestKeys) ∧
      left = if found.isSome then keysAfter leaves.length requestKeys else requestKeys := by
  induction elements with
  | nil =>
      cases selected
      exact ⟨rfl, rfl⟩
  | cons element elements ih =>
      rw [selectElement] at selected
      split at selected
      · cases selected
      · rename_i clone gathered checked
        obtain ⟨matches', kept⟩ := element_checked nonempty checked
        rw [matches'] at selected
        cases agree : agreesInWords sid leaves requestKeys element with
        | true =>
            rw [if_pos agree, kept agree] at selected
            cases selected
            rw [List.find?_cons_of_pos agree]
            exact ⟨rfl, rfl⟩
        | false =>
            rw [if_neg (Bool.eq_false_iff.mp agree)] at selected
            rw [List.find?_cons_of_neg (Bool.eq_false_iff.mp agree)]
            exact ih selected

/-- An array with key leaves that the search comes to, with the values requested there, which are
the next ones, and what the search selects. -/
structure KeyedVisit where
  sid : Int64
  leaves : DynamicLongListT
  asked : List Int64
  elements : List CoreconfValueT
  selected : Option CoreconfValueT

/-- The arrays with key leaves on the course of examinePath. The values are what is left of the
request when each array has its own. -/
def visitedArrays : List PathNodeT → Option CoreconfValueT → Int64 → DynamicLongListT → List Int64 →
    List KeyedVisit
  | [], _, _, _, _ => []
  | currentPathNode :: nextPathNode, subTree, previousSID, requestKeys, values =>
      let parentSID := currentPathNode.parentSID
      if parentSID = 0 then []
      else
        match subTree with
        | some (.hashmap map) =>
            let subTree := getCoreconfHashMap map (parentSID - previousSID).toUInt64
            match currentPathNode.sidKeys with
            | none => visitedArrays nextPathNode subTree parentSID requestKeys values
            | some [] => visitedArrays nextPathNode subTree parentSID requestKeys values
            | some sidKeys =>
                match subTree with
                | some (.array elements) =>
                    match selectElement sidKeys parentSID requestKeys elements with
                    | none => []
                    | some (selected, requestKeys) =>
                        ⟨parentSID, sidKeys, values.take sidKeys.length, elements, selected⟩ ::
                          visitedArrays nextPathNode (some (selected.getD (.array elements))) parentSID requestKeys
                            (values.drop sidKeys.length)
                | _ => []
        | _ => []

/-- The key leaves of the element equal the values requested at the array. -/
def KeyedVisit.Holds (visit : KeyedVisit) (element : CoreconfValueT) : Prop :=
  HoldsValues SameLong visit.sid.toUInt64 visit.leaves visit.asked element

/-- The search has gone on from an element that was requested. -/
def KeyedVisit.Kept (visit : KeyedVisit) : Prop :=
  ∃ element ∈ visit.elements, visit.selected = some element ∧ visit.Holds element

/-- A round of the search that has come back: at the end, at a SID without key leaves, at one with
key leaves and no array, or at an array with them. -/
inductive Round (found : Option (Int64 × Option CoreconfValueT)) (left : DynamicLongListT) :
    PathNodeT → List PathNodeT → Option CoreconfValueT → Int64 → DynamicLongListT → Prop
  | arrived {node later subTree base} (top : node.parentSID = 0) (here : found = some (base, subTree)) :
      Round found left node later subTree base left
  | member {node later map base requestKeys} (inside : node.parentSID ≠ 0) (leafless : node.sidKeys.getD [] = [])
      (rest : examinePath later (getCoreconfHashMap map (node.parentSID - base).toUInt64) node.parentSID
        requestKeys = some (found, left)) :
      Round found left node later (some (.hashmap map)) base requestKeys
  | noArray {node later map base value} (inside : node.parentSID ≠ 0) (keyed : node.sidKeys.getD [] ≠ [])
      (bound : getCoreconfHashMap map (node.parentSID - base).toUInt64 = some value)
      (other : ∀ elements, value ≠ .array elements) (absent : found = none) :
      Round found left node later (some (.hashmap map)) base left
  | array {node later map base requestKeys elements selected next} (inside : node.parentSID ≠ 0)
      (keyed : node.sidKeys.getD [] ≠ [])
      (bound : getCoreconfHashMap map (node.parentSID - base).toUInt64 = some (.array elements))
      (selects : selectElement (node.sidKeys.getD []) node.parentSID requestKeys elements = some (selected, next))
      (rest : examinePath later (some (selected.getD (.array elements))) node.parentSID next = some (found, left)) :
      Round found left node later (some (.hashmap map)) base requestKeys

theorem examinePath_round {node : PathNodeT} {later : List PathNodeT} {subTree : Option CoreconfValueT} {base : Int64}
    {requestKeys left : DynamicLongListT} {found : Option (Int64 × Option CoreconfValueT)}
    (searched : examinePath (node :: later) subTree base requestKeys = some (found, left)) :
    Round found left node later subTree base requestKeys := by
  obtain ⟨parentSID, sidKeys⟩ := node
  by_cases top : parentSID = 0
  · simp only [examinePath, if_pos top, Option.some.injEq, Prod.mk.injEq] at searched
    obtain ⟨rfl, rfl⟩ := searched
    exact .arrived top rfl
  · cases subTree with
    | none => simp only [examinePath, if_neg top, reduceCtorEq] at searched
    | some value =>
        cases value with
        | hashmap map =>
            cases sidKeys with
            | none =>
                simp only [examinePath, if_neg top] at searched
                exact .member top rfl searched
            | some leaves =>
                cases leaves with
                | nil =>
                    simp only [examinePath, if_neg top] at searched
                    exact .member top rfl searched
                | cons leaf leaves =>
                    have keyed : (some (leaf :: leaves)).getD [] ≠ [] := List.cons_ne_nil leaf leaves
                    cases bound : getCoreconfHashMap map (parentSID - base).toUInt64 with
                    | none => simp only [examinePath, if_neg top, bound, reduceCtorEq] at searched
                    | some value =>
                        cases value with
                        | array elements =>
                            cases selects : selectElement (leaf :: leaves) parentSID requestKeys elements with
                            | none => simp only [examinePath, if_neg top, bound, selects, reduceCtorEq] at searched
                            | some result =>
                                simp only [examinePath, if_neg top, bound, selects] at searched
                                exact .array top keyed bound selects searched
                        | _ =>
                            simp only [examinePath, if_neg top, bound, Option.some.injEq, Prod.mk.injEq] at searched
                            obtain ⟨absent, rfl⟩ := searched
                            exact .noArray top keyed bound (fun elements => by simp) absent.symm
        | _ => simp only [examinePath, if_neg top, reduceCtorEq] at searched

section Visited

variable {node : PathNodeT} {later : List PathNodeT} {map : CoreconfHashMapT CoreconfValueT} {base : Int64}
  {requestKeys : DynamicLongListT} {values : List Int64}

theorem visitedArrays_arrived (top : node.parentSID = 0) (subTree : Option CoreconfValueT) :
    visitedArrays (node :: later) subTree base requestKeys values = [] := by
  simp only [visitedArrays, if_pos top]

variable (inside : node.parentSID ≠ 0)
include inside

theorem visitedArrays_member (leafless : node.sidKeys.getD [] = []) :
    visitedArrays (node :: later) (some (.hashmap map)) base requestKeys values =
      visitedArrays later (getCoreconfHashMap map (node.parentSID - base).toUInt64) node.parentSID requestKeys
        values := by
  cases keys : node.sidKeys with
  | none => simp only [visitedArrays, if_neg inside, keys]
  | some leaves =>
      rw [keys, Option.getD_some] at leafless
      simp only [visitedArrays, if_neg inside, keys, leafless]

theorem visitedArrays_array (keyed : node.sidKeys.getD [] ≠ []) {elements : List CoreconfValueT}
    (bound : getCoreconfHashMap map (node.parentSID - base).toUInt64 = some (.array elements))
    {selected : Option CoreconfValueT} {next : DynamicLongListT}
    (selects : selectElement (node.sidKeys.getD []) node.parentSID requestKeys elements = some (selected, next)) :
    visitedArrays (node :: later) (some (.hashmap map)) base requestKeys values =
      ⟨node.parentSID, node.sidKeys.getD [], values.take (node.sidKeys.getD []).length, elements, selected⟩ ::
        visitedArrays later (some (selected.getD (.array elements))) node.parentSID next
          (values.drop (node.sidKeys.getD []).length) := by
  cases keys : node.sidKeys with
  | none => exact absurd (by rw [keys]; rfl) keyed
  | some leaves =>
      rw [keys, Option.getD_some] at keyed selects
      cases leaves with
      | nil => exact absurd rfl keyed
      | cons leaf leaves => simp only [visitedArrays, if_neg inside, keys, bound, selects, Option.getD_some]

end Visited

/-- The search comes to a SID with key leaves that is no array's. -/
inductive ComesToNoArray : List PathNodeT → Option CoreconfValueT → Int64 → DynamicLongListT → Prop
  | here {node later map base requestKeys value} (inside : node.parentSID ≠ 0) (keyed : node.sidKeys.getD [] ≠ [])
      (bound : getCoreconfHashMap map (node.parentSID - base).toUInt64 = some value)
      (other : ∀ elements, value ≠ .array elements) :
      ComesToNoArray (node :: later) (some (.hashmap map)) base requestKeys
  | member {node later map base requestKeys} (inside : node.parentSID ≠ 0) (leafless : node.sidKeys.getD [] = [])
      (rest : ComesToNoArray later (getCoreconfHashMap map (node.parentSID - base).toUInt64) node.parentSID
        requestKeys) :
      ComesToNoArray (node :: later) (some (.hashmap map)) base requestKeys
  | entry {node later map base requestKeys elements element} (inside : node.parentSID ≠ 0)
      (keyed : node.sidKeys.getD [] ≠ [])
      (bound : getCoreconfHashMap map (node.parentSID - base).toUInt64 = some (.array elements))
      (first : elements.find? (agreesInWords node.parentSID (node.sidKeys.getD []) requestKeys) = some element)
      (rest : ComesToNoArray later (some element) node.parentSID
        (keysAfter (node.sidKeys.getD []).length requestKeys)) :
      ComesToNoArray (node :: later) (some (.hashmap map)) base requestKeys

/-- At each array with key leaves the first element that agrees in words is there, and its leaves
equal the requested values, of which there are enough. -/
inductive KeepsToRequest : List PathNodeT → Option CoreconfValueT → Int64 → DynamicLongListT → List Int64 → Prop
  | arrived {node later subTree base requestKeys values} (top : node.parentSID = 0) :
      KeepsToRequest (node :: later) subTree base requestKeys values
  | member {node later map base requestKeys values} (inside : node.parentSID ≠ 0)
      (leafless : node.sidKeys.getD [] = [])
      (rest : KeepsToRequest later (getCoreconfHashMap map (node.parentSID - base).toUInt64) node.parentSID
        requestKeys values) :
      KeepsToRequest (node :: later) (some (.hashmap map)) base requestKeys values
  | entry {node later map base requestKeys values elements element} (inside : node.parentSID ≠ 0)
      (keyed : node.sidKeys.getD [] ≠ [])
      (bound : getCoreconfHashMap map (node.parentSID - base).toUInt64 = some (.array elements))
      (first : elements.find? (agreesInWords node.parentSID (node.sidKeys.getD []) requestKeys) = some element)
      (holds : HoldsValues SameLong node.parentSID.toUInt64 (node.sidKeys.getD [])
        (values.take (node.sidKeys.getD []).length) element)
      (rest : KeepsToRequest later (some element) node.parentSID
        (keysAfter (node.sidKeys.getD []).length requestKeys) (values.drop (node.sidKeys.getD []).length)) :
      KeepsToRequest (node :: later) (some (.hashmap map)) base requestKeys values

section Inversion

variable {node : PathNodeT} {later : List PathNodeT} {map : CoreconfHashMapT CoreconfValueT} {base : Int64}
  {requestKeys : DynamicLongListT} {values : List Int64} (inside : node.parentSID ≠ 0)
include inside

theorem comesToNoArray_member (leafless : node.sidKeys.getD [] = []) :
    ComesToNoArray (node :: later) (some (.hashmap map)) base requestKeys ↔
      ComesToNoArray later (getCoreconfHashMap map (node.parentSID - base).toUInt64) node.parentSID requestKeys := by
  constructor
  · intro comes
    cases comes with
    | here _ keyed => exact absurd leafless keyed
    | member _ _ rest => exact rest
    | entry _ keyed => exact absurd leafless keyed
  · exact .member inside leafless

theorem keepsToRequest_member (leafless : node.sidKeys.getD [] = []) :
    KeepsToRequest (node :: later) (some (.hashmap map)) base requestKeys values ↔
      KeepsToRequest later (getCoreconfHashMap map (node.parentSID - base).toUInt64) node.parentSID requestKeys
        values := by
  constructor
  · intro keeps
    cases keeps with
    | arrived top => exact absurd top inside
    | member _ _ rest => exact rest
    | entry _ keyed => exact absurd leafless keyed
  · exact .member inside leafless

variable (keyed : node.sidKeys.getD [] ≠ []) {elements : List CoreconfValueT}
  (bound : getCoreconfHashMap map (node.parentSID - base).toUInt64 = some (.array elements))
include keyed bound

theorem comesToNoArray_array :
    ComesToNoArray (node :: later) (some (.hashmap map)) base requestKeys ↔
      ∃ element, elements.find? (agreesInWords node.parentSID (node.sidKeys.getD []) requestKeys) = some element ∧
        ComesToNoArray later (some element) node.parentSID
          (keysAfter (node.sidKeys.getD []).length requestKeys) := by
  constructor
  · intro comes
    cases comes with
    | here _ _ bound' other =>
        cases bound.symm.trans bound'
        exact absurd rfl (other elements)
    | member _ leafless => exact absurd leafless keyed
    | entry _ _ bound' first rest =>
        cases bound.symm.trans bound'
        exact ⟨_, first, rest⟩
  · rintro ⟨element, first, rest⟩
    exact .entry inside keyed bound first rest

theorem keepsToRequest_array :
    KeepsToRequest (node :: later) (some (.hashmap map)) base requestKeys values ↔
      ∃ element, elements.find? (agreesInWords node.parentSID (node.sidKeys.getD []) requestKeys) = some element ∧
        HoldsValues SameLong node.parentSID.toUInt64 (node.sidKeys.getD [])
          (values.take (node.sidKeys.getD []).length) element ∧
        KeepsToRequest later (some element) node.parentSID
          (keysAfter (node.sidKeys.getD []).length requestKeys) (values.drop (node.sidKeys.getD []).length) := by
  constructor
  · intro keeps
    cases keeps with
    | arrived top => exact absurd top inside
    | member _ leafless => exact absurd leafless keyed
    | entry _ _ bound' first holds rest =>
        cases bound.symm.trans bound'
        exact ⟨_, first, holds, rest⟩
  · rintro ⟨element, first, holds, rest⟩
    exact .entry inside keyed bound first holds rest

end Inversion

/-- From an array the search comes back at the end of the path only. -/
theorem examinePath_array {path : List PathNodeT} {elements : List CoreconfValueT} {base : Int64}
    {requestKeys left : DynamicLongListT} {found : Option (Int64 × Option CoreconfValueT)}
    (searched : examinePath path (some (.array elements)) base requestKeys = some (found, left)) : found ≠ none := by
  cases path with
  | nil => cases searched
  | cons node later =>
      cases examinePath_round searched with
      | arrived top here =>
          rw [here]
          exact Option.some_ne_none _

section Search

variable {path : List PathNodeT} {subTree : Option CoreconfValueT} {base : Int64}
  {requestKeys left : DynamicLongListT} {found : Option (Int64 × Option CoreconfValueT)}
  (searched : examinePath path subTree base requestKeys = some (found, left))
include searched

/-- The search finds nothing exactly at a SID with key leaves and no array. -/
theorem examinePath_none_iff : found = none ↔ ComesToNoArray path subTree base requestKeys := by
  induction path generalizing subTree base requestKeys with
  | nil => cases searched
  | cons node later ih =>
      cases examinePath_round searched with
      | arrived top here =>
          constructor
          · intro absent
            cases here.symm.trans absent
          · intro comes
            cases comes <;> contradiction
      | member inside leafless rest =>
          rw [comesToNoArray_member inside leafless]
          exact ih rest
      | noArray inside keyed bound other absent =>
          exact ⟨fun _ => .here inside keyed bound other, fun _ => absent⟩
      | array inside keyed bound selects rest =>
          rename_i elements selected next
          obtain ⟨first, nextKeys⟩ := selectElement_agreeing keyed selects
          rw [comesToNoArray_array inside keyed bound, ← first]
          cases selected with
          | none =>
              -- The search has gone on with the array.
              constructor
              · intro absent
                exact absurd absent (examinePath_array rest)
              · rintro ⟨element, impossible, -⟩
                cases impossible
          | some element =>
              rw [nextKeys] at rest
              rw [ih rest]
              simp only [Option.some.injEq, exists_eq_left']
              rfl

/-- Where something is found, the search has gone on from requested elements only exactly under
the condition on its input. -/
theorem examinePath_kept_iff (values : List Int64) (some : found ≠ none) :
    (∀ visit ∈ visitedArrays path subTree base requestKeys values, visit.Kept) ↔
      KeepsToRequest path subTree base requestKeys values := by
  induction path generalizing subTree base requestKeys values with
  | nil => cases searched
  | cons node later ih =>
      cases examinePath_round searched with
      | arrived top here =>
          rw [visitedArrays_arrived top]
          exact ⟨fun _ => .arrived top, fun _ visit member => by cases member⟩
      | member inside leafless rest =>
          rw [keepsToRequest_member inside leafless, visitedArrays_member inside leafless]
          exact ih rest values
      | noArray inside keyed bound other absent => exact absurd absent some
      | array inside keyed bound selects rest =>
          rename_i elements selected next
          obtain ⟨first, nextKeys⟩ := selectElement_agreeing keyed selects
          rw [keepsToRequest_array inside keyed bound, visitedArrays_array inside keyed bound selects,
            List.forall_mem_cons, ← first]
          cases selected with
          | none =>
              constructor
              · rintro ⟨⟨element, -, impossible, -⟩, -⟩
                cases impossible
              · rintro ⟨element, impossible, -⟩
                cases impossible
          | some element =>
              have member := List.mem_of_find?_eq_some first.symm
              rw [nextKeys] at rest ⊢
              rw [ih rest (values.drop (node.sidKeys.getD []).length)]
              simp only [KeyedVisit.Kept, KeyedVisit.Holds, Option.some.injEq, exists_eq_left']
              constructor
              · rintro ⟨⟨element', -, rfl, holds⟩, rest'⟩
                exact ⟨holds, rest'⟩
              · rintro ⟨holds, rest'⟩
                exact ⟨⟨element, member, rfl, holds⟩, rest'⟩

end Search

/-- The arrays with key leaves that examineCoreconfValue comes to. -/
def keyedVisits (coreconfModel : Option CoreconfValueT) (requestKeys : DynamicLongListT)
    (headNode : Option (List PathNodeT)) : List KeyedVisit :=
  match coreconfModel, headNode with
  | some model, some path => visitedArrays path (some model) 0 requestKeys requestKeys.reverse
  | _, _ => []

/-- Without a match at one of the arrays the result is NULL, and a result that is not NULL is of
elements that were requested. -/
structure NoMatchNotFound (visits : List KeyedVisit) (result : Option CoreconfValueT) : Prop where
  notFound : ∀ visit ∈ visits, (∀ element ∈ visit.elements, ¬ visit.Holds element) → result = none
  requested : result ≠ none → ∀ visit ∈ visits, visit.Kept

theorem noMatchNotFound_iff {visits : List KeyedVisit} {result : Option CoreconfValueT} :
    NoMatchNotFound visits result ↔ result = none ∨ ∀ visit ∈ visits, visit.Kept := by
  constructor
  · intro law
    by_cases absent : result = none
    · exact Or.inl absent
    · exact Or.inr (law.requested absent)
  · rintro (absent | kept)
    · exact ⟨fun _ _ _ => absent, fun some => absurd absent some⟩
    · refine ⟨?_, fun _ => kept⟩
      intro visit member unmatched
      obtain ⟨element, inside, -, holds⟩ := kept visit member
      exact absurd holds (unmatched element inside)

/-- Where the search comes back, the law holds exactly if the path comes to a SID with key leaves
and no array, or if it is gone by requested elements only. -/
theorem no_match_not_found_iff {coreconfModel result : Option CoreconfValueT}
    {requestKeys left : DynamicLongListT} {headNode : Option (List PathNodeT)}
    (returned : examineCoreconfValue coreconfModel requestKeys headNode = some (result, left)) :
    NoMatchNotFound (keyedVisits coreconfModel requestKeys headNode) result ↔
      ∀ model path, coreconfModel = some model → headNode = some path →
        ComesToNoArray path (some model) 0 requestKeys ∨
          KeepsToRequest path (some model) 0 requestKeys requestKeys.reverse := by
  rw [noMatchNotFound_iff]
  cases coreconfModel with
  | none =>
      cases returned
      simp
  | some model =>
      cases headNode with
      | none =>
          cases returned
          simp
      | some path =>
          rw [examineCoreconfValue] at returned
          obtain ⟨⟨found, keys⟩, searched, same⟩ := Option.map_eq_some_iff.mp returned
          cases same
          rw [Option.map_eq_none_iff, examinePath_none_iff searched]
          by_cases comes : ComesToNoArray path (some model) 0 requestKeys
          · constructor
            · intro _ model' path' sameModel samePath
              cases sameModel
              cases samePath
              exact Or.inl comes
            · intro _
              exact Or.inl comes
          · have keeps := examinePath_kept_iff searched requestKeys.reverse
              (fun none => comes ((examinePath_none_iff searched).mp none))
            constructor
            · intro law model' path' sameModel samePath
              cases sameModel
              cases samePath
              exact Or.inr (keeps.mp (law.resolve_left comes))
            · intro condition
              exact Or.inr (keeps.mpr ((condition model path rfl rfl).resolve_left comes))

/-- The second entry has the key 9, and the request for SID 1 with this key finds it. -/
theorem requested_entry_found :
    NoMatchNotFound (keyedVisits (some (keyedModel [.uint8 7, .uint8 9])) [9] (some (pathTo keyedBySecond [1])))
      (some (.hashmap (entryOf (.hashmap (entryOf (.uint8 9)))))) := by
  have found : examineCoreconfValue (some (keyedModel [.uint8 7, .uint8 9])) [9] (some (pathTo keyedBySecond [1])) =
      some (some (.hashmap (entryOf (.hashmap (entryOf (.uint8 9))))), [9]) := rfl
  apply (no_match_not_found_iff found).mpr
  intro model path sameModel samePath
  cases sameModel
  cases samePath
  have holds : HoldsValues SameLong 1 [2] [9] (.hashmap (entryOf (.uint8 9))) :=
    keyedModel_holds.mpr ⟨9, rfl, show Int64.ofInt 9 = 9 by decide⟩
  exact Or.inr (.entry (by decide) (by decide) rfl rfl holds (.arrived rfl))

/-- Where no entry has the key 8, the request for SID 1 with this key finds the whole array. -/
theorem whole_array_found :
    ¬ ∀ coreconfModel requestKeys headNode result left,
      examineCoreconfValue coreconfModel requestKeys headNode = some (result, left) →
        NoMatchNotFound (keyedVisits coreconfModel requestKeys headNode) result := by
  intro law
  have found : examineCoreconfValue (some (keyedModel [.uint8 7, .uint8 9])) [8] (some (pathTo keyedBySecond [1])) =
      some (some (.hashmap (entryOf (.array [.hashmap (entryOf (.uint8 7)), .hashmap (entryOf (.uint8 9))]))), [8]) :=
    rfl
  have visits : keyedVisits (some (keyedModel [.uint8 7, .uint8 9])) [8] (some (pathTo keyedBySecond [1])) =
      [⟨1, [2], [8], [.hashmap (entryOf (.uint8 7)), .hashmap (entryOf (.uint8 9))], none⟩] := rfl
  have unequal : ∀ value ∈ [CoreconfValueT.uint8 7, .uint8 9],
      ¬ HoldsValues SameLong 1 (keyLeaves keyedBySecond 1) [8] (.hashmap (entryOf value)) := by
    intro value member holds
    obtain ⟨i, integer, same⟩ := keyedModel_holds.mp holds
    simp only [List.mem_cons, List.not_mem_nil, or_false] at member
    rcases member with rfl | rfl
    · cases integer
      revert same
      exact show ¬ Int64.ofInt 7 = 8 by decide
    · cases integer
      revert same
      exact show ¬ Int64.ofInt 9 = 8 by decide
  have absent := (law _ _ _ _ _ found).notFound
  rw [visits] at absent
  have impossible := absent _ List.mem_cons_self (by
    intro element member
    obtain ⟨value, inside, rfl⟩ : ∃ value ∈ [CoreconfValueT.uint8 7, .uint8 9], .hashmap (entryOf value) = element := by
      simpa [eq_comm] using member
    exact unequal value inside)
  cases impossible

end Coreconf
