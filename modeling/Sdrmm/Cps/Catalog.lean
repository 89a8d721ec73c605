import Sdrmm.Cps.Codeplug

/-!
# Catalogs

The names of a codeplug by their positions, after `cps/src/catalog.rs`.  Two names of one list that
are the same share an entry of its index, and the later one is kept there.
-/

namespace Sdrmm.Cps

structure NameList where
  names : List String

namespace NameList

def lastIndex (name : String) : List String → Option ℕ
  | [] => none
  | first :: names =>
      match lastIndex name names with
      | some index => some (index + 1)
      | none => if first = name then some 0 else none

def indexOf (list : NameList) (name : String) : Option ℕ := lastIndex name list.names

def nameAt (list : NameList) (index : ℕ) : Option String := list.names[index]?

end NameList

structure Catalog where
  contacts : NameList
  groupLists : NameList
  scanLists : NameList
  radioIds : NameList
  channels : NameList
  zones : NameList

def Catalog.of (codeplug : Codeplug) : Catalog where
  contacts := ⟨codeplug.contacts.map (·.name)⟩
  groupLists := ⟨codeplug.groupLists.map (·.name)⟩
  scanLists := ⟨codeplug.scanLists.map (·.name)⟩
  radioIds := ⟨codeplug.radioIds.map (·.name)⟩
  channels := ⟨codeplug.channels.map (·.name)⟩
  zones := ⟨codeplug.zones.map (·.name)⟩

end Sdrmm.Cps
