import CodeIndex.Number.Double
import CodeIndex.Text.Order
import CodeIndex.Text.Utf8

/-!
# File systems

A file system is a list of entries, each at its location: the names that lead to it from the root,
with no links on the way. The root itself is always a directory. Entries are looked up by `get?`,
placed by `put` and removed by `erase`; all else is said in terms of these.

It belongs to a host, which decides what no program does: the time that new entries are stamped
with, and the orders in which directories are listed and sets are gone through.
-/

namespace CodeIndex

abbrev Location := List Text

/-- Whether two locations are the same. Most differ in length, which is quicker to see. -/
def Location.same (a b : Location) : Bool := a.length == b.length && a == b

theorem Location.same_eq (a b : Location) : Location.same a b = decide (a = b) := by
  by_cases h : a = b <;> simp [Location.same, h]

structure FileData where
  bytes : Bytes
  mtime : Double
  denied : Bool
deriving DecidableEq

structure DirData where
  /-- Whether its names can be listed. -/
  listable : Bool
  /-- Whether what is in it can be looked up by name. -/
  searchable : Bool
  /-- Whether entries can be made in it. -/
  writable : Bool
  mtime : Double
  size : Nat
deriving DecidableEq

inductive Entry where
  | file (data : FileData)
  | directory (data : DirData)
  /-- A symbolic link with its target as it was written. -/
  | link (target : Text)
  /-- A socket, or another thing that is there and cannot be opened. -/
  | special (mtime : Double) (size : Nat)
deriving DecidableEq

namespace Entry

def isDirectory : Entry → Bool
  | directory _ => true
  | _ => false

def isFile : Entry → Bool
  | file _ => true
  | _ => false

def isLink : Entry → Bool
  | link _ => true
  | _ => false

def isListable : Entry → Bool
  | directory data => data.listable
  | _ => false

/-- Whether an entry stops nobody on the way to what is in it. -/
def isSearchable : Entry → Bool
  | directory data => data.searchable
  | _ => true

def isWritable : Entry → Bool
  | directory data => data.writable
  | _ => true

end Entry

structure Host where
  clock : Double
  dirSize : Nat
  root : DirData
  /-- The order in which the directory at a location is listed. -/
  listing : Location → TextOrder
  sets : SetOrder

namespace Host

def newDir (host : Host) : DirData := ⟨true, true, true, host.clock, host.dirSize⟩

def standard : Host :=
  let start : Double := .ofInt 0
  ⟨start, 4096, ⟨true, true, true, start, 4096⟩, fun _ => .byCode, .byCode⟩

end Host

structure FileSystem where
  entries : List (Location × Entry)
  cwd : Location
  host : Host
  nodup : (entries.map Prod.fst).Nodup

namespace FileSystem

def empty (host : Host) (cwd : Location) : FileSystem := ⟨[], cwd, host, .nil⟩

def get? (fs : FileSystem) (loc : Location) : Option Entry :=
  if loc = [] then some (.directory fs.host.root)
  else (fs.entries.find? fun x => Location.same x.1 loc).map Prod.snd

def put (fs : FileSystem) (loc : Location) (e : Entry) : FileSystem where
  entries :=
    if fs.entries.any fun x => x.1 = loc then
      fs.entries.map fun x => if x.1 = loc then (loc, e) else x
    else fs.entries ++ [(loc, e)]
  cwd := fs.cwd
  host := fs.host
  nodup := by
    have hmap : (fs.entries.map fun x => if x.1 = loc then (loc, e) else x).map Prod.fst =
        fs.entries.map Prod.fst := by
      rw [List.map_map]
      refine List.map_congr_left fun x _ => ?_
      by_cases h : x.1 = loc <;> simp [h]
    split
    · rw [hmap]
      exact fs.nodup
    · next hnone =>
      rw [List.map_append, List.nodup_append]
      refine ⟨fs.nodup, by simp, ?_⟩
      intro a ha b hb hab
      simp only [List.map_cons, List.map_nil, List.mem_singleton] at hb
      obtain ⟨x, hx, rfl⟩ := List.mem_map.1 ha
      exact hnone (List.any_eq_true.2 ⟨x, hx, by simp [hab, hb]⟩)

def erase (fs : FileSystem) (loc : Location) : FileSystem where
  entries := fs.entries.filter fun x => !loc.isPrefixOf x.1
  cwd := fs.cwd
  host := fs.host
  nodup := fs.nodup.sublist (List.filter_sublist.map _)

def childName? (loc key : Location) : Option Text :=
  if loc.isPrefixOf key then
    match key.drop loc.length with
    | [name] => some name
    | _ => none
  else none

/-- The names directly below a location, in the order of its listing. -/
def childNames (fs : FileSystem) (loc : Location) : List Text :=
  (fs.host.listing loc).sort (fs.entries.filterMap fun x => childName? loc x.1)

def depth (fs : FileSystem) : Nat := fs.entries.foldl (fun n x => max n x.1.length) 0

theorem find?_put_entries {entries : List (Location × Entry)} {loc key : Location} {e : Entry} :
    ((entries.map fun x => if x.1 = loc then (loc, e) else x).find? fun x => x.1 = key) =
      (entries.find? fun x => x.1 = key).map fun x => if x.1 = loc then (loc, e) else x := by
  rw [List.find?_map]
  congr 1
  refine congrArg (fun p => List.find? p entries) ?_
  funext x
  by_cases h : x.1 = loc <;> simp [h]

theorem get?_put (fs : FileSystem) {loc : Location} (hloc : loc ≠ []) (e : Entry)
    (key : Location) : (fs.put loc e).get? key = if key = loc then some e else fs.get? key := by
  by_cases hkey : key = []
  · subst hkey
    simp [get?, hloc.symm, put]
  simp only [get?, Location.same_eq, hkey, if_false]
  by_cases hany : (fs.entries.any fun x => decide (x.1 = loc)) = true
  · simp only [put, hany, if_true, find?_put_entries, Option.map_map]
    by_cases hk : key = loc
    · subst hk
      obtain ⟨x, hx, hxl⟩ := List.any_eq_true.1 hany
      have hsome : (fs.entries.find? fun x => decide (x.1 = key)).isSome :=
        List.find?_isSome.2 ⟨x, hx, hxl⟩
      obtain ⟨y, hy⟩ := Option.isSome_iff_exists.1 hsome
      have hyk := List.find?_some hy
      simp only [decide_eq_true_eq] at hyk
      simp [hy, hyk]
    · simp only [hk, if_false]
      cases hf : fs.entries.find? fun x => decide (x.1 = key) with
      | none => simp
      | some y =>
        have hyk := List.find?_some hf
        simp only [decide_eq_true_eq] at hyk
        simp [hyk, hk]
  · have hfresh : ∀ x ∈ fs.entries, x.1 ≠ loc := by
      intro x hx h
      exact hany (List.any_eq_true.2 ⟨x, hx, by simp [h]⟩)
    simp only [put, hany, Bool.false_eq_true, if_false, List.find?_append]
    by_cases hk : key = loc
    · subst hk
      have hnone : (fs.entries.find? fun x => decide (x.1 = key)) = none :=
        List.find?_eq_none.2 fun x hx => by simp [hfresh x hx]
      simp [hnone]
    · simp [hk, Ne.symm hk]

end FileSystem

end CodeIndex
