import Coreconf.Fuel
import Coreconf.Types
import Mathlib.Data.List.Sort

set_option autoImplicit false

/- sid.c's lists of longs, and coreconfManipulation.c: the index from each SID to its
parents, the path of SIDs from the root, and the search for a node along it. A hashmap of
hashmap.c is the list of its items, and a change through the pointer that `hashmap_get`
returns is a set. -/
namespace Coreconf

open Fuel

def MAX_CORECONF_RECURSION_DEPTH : Nat := 50

abbrev DynamicLongListT : Type := List Int64

/-- The subtraction is of the low halves of the longs. -/
def compareLong (a b : Int64) : Int32 := a.toInt32 - b.toInt32

def sortDynamicLongList (dynamicLongList : DynamicLongListT) : List Int64 :=
  dynamicLongList.insertionSort fun a b => compareLong a b ≤ 0

def compareDynamicLongList (dynamicLongList1 dynamicLongList2 : DynamicLongListT) : Bool :=
  if dynamicLongList1.length = 0 ∨ dynamicLongList2.length = 0 then false
  else if dynamicLongList1.length ≠ dynamicLongList2.length then false
  else sortDynamicLongList dynamicLongList1 == sortDynamicLongList dynamicLongList2

def addLong (dynamicLongList : DynamicLongListT) (value : Int64) : DynamicLongListT :=
  dynamicLongList ++ [value]

/-- The last value and the list without it. -/
def popLong (dynamicLongList : DynamicLongListT) : Int64 × DynamicLongListT :=
  match dynamicLongList.getLast? with
  | none => (0, dynamicLongList)
  | some lastValue => (lastValue, dynamicLongList.dropLast)

/-- The clone afterwards. Of a list without elements nothing is copied, so that a clone that
was not initialised, `none`, is not after the call either. -/
def cloneDynamicLongList (original : DynamicLongListT) (cloned : Option DynamicLongListT) :
    Option DynamicLongListT :=
  if original.length = 0 then cloned else some original

def addUniqueLong (dynamicLongList : DynamicLongListT) (value : Int64) : DynamicLongListT :=
  if value ∈ dynamicLongList then dynamicLongList else addLong dynamicLongList value

structure KeyMappingT where
  key : Int64
  dynamicLongList : DynamicLongListT
deriving DecidableEq

structure CLookupT where
  childSID : Int64
  dynamicLongList : DynamicLongListT
deriving DecidableEq

/-- `nextPathNode` pointers are the order of a path's list, and `none` is a NULL list. -/
structure PathNodeT where
  parentSID : Int64
  sidKeys : Option DynamicLongListT
deriving DecidableEq

def keyMappingCompare (a b : KeyMappingT) : Bool := a.key != b.key

def clookupCompare (a b : CLookupT) : Bool := a.childSID != b.childSID

def hashmapGet {T : Type} (compare : T → T → Bool) (items : List T) (item : T) : Option T :=
  items.find? fun found => !compare item found

def hashmapSet {T : Type} (compare : T → T → Bool) (items : List T) (item : T) : List T :=
  match hashmapGet compare items item with
  | none => items ++ [item]
  | some _ => items.map fun found => if compare item found then found else item

/-- The record of a parent of a SID, in an item of the SID's own. -/
def recordParent (clookupHashmap : List CLookupT) (childSID parentSID : Int64) : List CLookupT :=
  match hashmapGet clookupCompare clookupHashmap ⟨childSID, []⟩ with
  | none => hashmapSet clookupCompare clookupHashmap ⟨childSID, addUniqueLong [] parentSID⟩
  | some clookup =>
      hashmapSet clookupCompare clookupHashmap
        { clookup with dynamicLongList := addUniqueLong clookup.dynamicLongList parentSID }

/-- The recursion, with the levels that are left to it. It has no result where it goes
through a NULL value. -/
def buildLevels : Nat → Option CoreconfValueT → List CLookupT → Int64 → Option (List CLookupT)
  | 0, _, clookupHashmap, _ => some clookupHashmap
  | _ + 1, none, _, _ => none
  | levels + 1, some (.hashmap map), clookupHashmap, parentSID =>
      map.objects.foldlM (fun clookupHashmap current =>
        let childSIDValue := (current.key + parentSID.toUInt64).toInt64
        buildLevels levels current.value (recordParent clookupHashmap childSIDValue parentSID)
          childSIDValue) clookupHashmap
  | levels + 1, some (.array elements), clookupHashmap, parentSID =>
      elements.foldlM (fun clookupHashmap arrayElement =>
        buildLevels levels (some arrayElement) clookupHashmap parentSID) clookupHashmap
  | _ + 1, some _, clookupHashmap, _ => some clookupHashmap

def buildCLookupHashmapFromCoreconf (coreconfValue : CoreconfValueT) (clookupHashmap : List CLookupT)
    (parentSID : Int64) (recursionDepth : Nat) : Option (List CLookupT) :=
  buildLevels (MAX_CORECONF_RECURSION_DEPTH + 1 - recursionDepth) (some coreconfValue)
    clookupHashmap parentSID

def prependPathNode (endNode : List PathNodeT) (parentSID : Int64)
    (sidKeys : Option DynamicLongListT) : List PathNodeT :=
  ⟨parentSID, sidKeys⟩ :: endNode

/-- The key leaves of a SID, where it has an entry. -/
def sidKeysOf (keyMappingHashMap : List KeyMappingT) (sid : Int64) : Option DynamicLongListT :=
  (hashmapGet keyMappingCompare keyMappingHashMap ⟨sid, []⟩).map (·.dynamicLongList)

structure PathSearch where
  currentSID : Int64
  clookupHashmap : List CLookupT
  pathNodes : List PathNodeT

/-- One step up. The parent is taken off the list in the index. -/
def requirementBody (keyMappingHashMap : List KeyMappingT) (search : PathSearch) :
    Option (Step PathSearch (Option (List PathNodeT) × List CLookupT)) :=
  if search.currentSID = 0 then some (.done (some search.pathNodes, search.clookupHashmap))
  else
    match hashmapGet clookupCompare search.clookupHashmap ⟨search.currentSID, []⟩ with
    | none => some (.done (none, search.clookupHashmap))
    | some clookup =>
        let (parentSID, remaining) := popLong clookup.dynamicLongList
        some (.next
          { currentSID := parentSID
            clookupHashmap := hashmapSet clookupCompare search.clookupHashmap
              { clookup with dynamicLongList := remaining }
            pathNodes :=
              if parentSID ≠ 0 then
                prependPathNode search.pathNodes parentSID (sidKeysOf keyMappingHashMap parentSID)
              else search.pathNodes })

/-- The path, or NULL, and the index as it is left. -/
def findRequirementForSID (fuel : Nat) (sid : UInt64) (clookupHashmap : List CLookupT)
    (keyMappingHashMap : List KeyMappingT) : Option (Option (List PathNodeT) × List CLookupT) :=
  Fuel.loop (requirementBody keyMappingHashMap) fuel
    { currentSID := sid.toInt64
      clookupHashmap := clookupHashmap
      pathNodes := prependPathNode [⟨0, none⟩] sid.toInt64 (sidKeysOf keyMappingHashMap sid.toInt64) }

/-- The integral part of a double that is not negative. The conversion of a larger one than
fits has no defined result. -/
def realAsUint64 (bits : UInt64) : Option UInt64 :=
  let exponent := (bits >>> 52) &&& 0x7FF
  let significand := 0x10000000000000 ||| (bits &&& 0xFFFFFFFFFFFFF)
  if exponent < 1023 then some 0
  else if exponent < 1075 then some (significand >>> (1075 - exponent))
  else if exponent < 1087 then some (significand <<< (exponent - 1075))
  else none

/-- 2.5, 2^53 and 2^64. -/
example : realAsUint64 0x4004000000000000 = some 2 ∧ realAsUint64 0x4340000000000000 = some 9007199254740992 ∧
    realAsUint64 0x43F0000000000000 = none := by decide

/-- Whether the double is zero or positive. -/
def realNotNegative (bits : UInt64) : Bool := bits ≤ 0x7FF0000000000000 || bits = 0x8000000000000000

def getCoreconfValueAsUint64 : CoreconfValueT → Option UInt64
  | .int64 i => some i.toUInt64
  | .real bits => if realNotNegative bits then realAsUint64 bits else some 0
  | .int16 i => some i.toInt64.toUInt64
  | .int32 i => some i.toInt64.toUInt64
  | .int8 i => some i.toInt64.toUInt64
  | .uint64 u => some u
  | .uint16 u => some u.toUInt64
  | .uint32 u => some u.toUInt64
  | .uint8 u => some u.toUInt64
  | _ => some 0

/-- The check of an element at one key leaf: what is left of the request keys, and the leaves
that match so far. There is none where the element is no map, where it has no such leaf, and
where the request keys were not initialised. -/
def matchSidKey (element : CoreconfValueT) (parentSID : Int64)
    (progress : Option DynamicLongListT × DynamicLongListT) (sidKey : Int64) :
    Option (Option DynamicLongListT × DynamicLongListT) :=
  match element, progress with
  | .hashmap map, (some requestKeysClone, matched) =>
      match (getCoreconfHashMap map (sidKey.toUInt64 - parentSID.toUInt64)).bind getCoreconfValueAsUint64 with
      | none => none
      | some elementValueCheckInteger =>
          let (keyValueCheck, remaining) := popLong requestKeysClone
          some (some remaining,
            if elementValueCheckInteger = keyValueCheck.toUInt64 then addUniqueLong matched sidKey else matched)
  | _, _ => none

/-- The leaves a loop to `(int)size` comes to. -/
def loopedSidKeys (sidKeys : DynamicLongListT) : DynamicLongListT :=
  sidKeys.take (Int32.ofNat sidKeys.length).toInt.toNat

/-- The first element that matches, if there is one, and the request keys left behind it. -/
def selectElement (sidKeys : DynamicLongListT) (parentSID : Int64) (requestKeys : DynamicLongListT) :
    List CoreconfValueT → Option (Option CoreconfValueT × DynamicLongListT)
  | [] => some (none, requestKeys)
  | element :: elements =>
      match (loopedSidKeys sidKeys).foldlM (matchSidKey element parentSID)
          (cloneDynamicLongList requestKeys none, []) with
      | none => none
      | some (requestKeysClone, matched) =>
          if compareDynamicLongList sidKeys matched then
            (requestKeysClone.bind fun clone => cloneDynamicLongList clone (some requestKeys)).map fun left =>
              (some element, left)
          else selectElement sidKeys parentSID requestKeys elements

/-- The walk along the path: the last SID and the subtree there, or nothing, and what is left
of the request keys. -/
def examinePath : List PathNodeT → Option CoreconfValueT → Int64 → DynamicLongListT →
    Option (Option (Int64 × Option CoreconfValueT) × DynamicLongListT)
  | [], _, _, _ => none
  | currentPathNode :: nextPathNode, subTree, previousSID, requestKeys =>
      let parentSID := currentPathNode.parentSID
      if parentSID = 0 then some (some (previousSID, subTree), requestKeys)
      else
        match subTree with
        | some (.hashmap map) =>
            let subTree := getCoreconfHashMap map (parentSID - previousSID).toUInt64
            match currentPathNode.sidKeys with
            | none => examinePath nextPathNode subTree parentSID requestKeys
            | some [] => examinePath nextPathNode subTree parentSID requestKeys
            | some sidKeys =>
                match subTree with
                | none => none
                | some (.array elements) =>
                    match selectElement sidKeys parentSID requestKeys elements with
                    | none => none
                    | some (selected, requestKeys) =>
                        examinePath nextPathNode (some (selected.getD (.array elements))) parentSID requestKeys
                | some _ => some (none, requestKeys)
        | _ => none

/-- The map that is returned, or NULL, and what is left of the request keys. There is no
result where the code goes through a NULL pointer, takes another value for a map, or reads
request keys that were not initialised. -/
def examineCoreconfValue (coreconfModel : Option CoreconfValueT) (requestKeys : DynamicLongListT)
    (headNode : Option (List PathNodeT)) : Option (Option CoreconfValueT × DynamicLongListT) :=
  match coreconfModel, headNode with
  | none, _ => some (none, requestKeys)
  | _, none => some (none, requestKeys)
  | some coreconfModel, some headNode =>
      (examinePath headNode (some coreconfModel) 0 requestKeys).map fun (found, requestKeys) =>
        (found.map fun (previousSID, subTree) =>
          .hashmap (insertCoreconfHashMap createCoreconfHashmap previousSID.toUInt64 subTree).2, requestKeys)

end Coreconf
