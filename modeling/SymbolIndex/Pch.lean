import SymbolIndex.Digest.Sha256
import SymbolIndex.Disk.Change
import SymbolIndex.Json.Codec
import SymbolIndex.Log.Record

/-!
# Precompiled headers

A table of precompiled headers by key. A key is free, being built by the one holder of a
reservation, or ready. Whoever asks for a key that is being built gets the ticket of that
reservation and learns its outcome; a reservation that is thrown away leaves its ticket without
one, and the key can then be reserved anew.
-/

namespace SymbolIndex

structure PchEntry where
  artifactPath : Path
  originHeader : Path
deriving DecidableEq, Inhabited

namespace PchEntry

def encode (e : PchEntry) : Json :=
  .obj [("artifact_path", e.artifactPath.encode), ("origin_header", e.originHeader.encode)]

def decode? (j : Json) : Option PchEntry := do
  match ← j.record? ["artifact_path", "origin_header"] 0 with
  | [artifact, origin] =>
    return { artifactPath := ← Json.required Path.decode? artifact
             originHeader := ← Json.required Path.decode? origin }
  | _ => none

end PchEntry

namespace Pch

inductive Status where
  | building
  | ready (entry : PchEntry)
  | failed
  | abandoned
deriving DecidableEq, Inhabited

inductive Slot where
  | building (ticket : Nat)
  | ready (entry : PchEntry)
deriving DecidableEq, Inhabited

structure Reservation where
  key : String
  ticket : Nat
deriving DecidableEq, Inhabited

inductive Answer where
  | ready (entry : PchEntry)
  | wait (ticket : Nat)
  | reserved (reservation : Reservation)
deriving DecidableEq, Inhabited

structure RelocationReport where
  relocated : Nat := 0
  dropped : List String := []
deriving DecidableEq, Inhabited

def RelocationReport.encode (r : RelocationReport) : Json :=
  .obj [("relocated", .ofNat r.relocated), ("dropped", .ofList .str r.dropped)]

end Pch

structure PchTable where
  slots : SortedMap String Pch.Slot := ∅
  fromUnsaved : SortedSet String := ∅
  tickets : List Pch.Status := []
deriving DecidableEq, Inhabited

namespace PchTable

open Pch

def ofMap (m : SortedMap String PchEntry) : PchTable :=
  { slots := m.mapValues (fun _ e => .ready e) }

def toMap (t : PchTable) : SortedMap String PchEntry :=
  SortedMap.ofList (t.slots.toList.filterMap (fun e =>
    match e.2 with
    | .ready entry => some (e.1, entry)
    | .building _ => none))

def size (t : PchTable) : Nat := t.slots.size

def isEmpty (t : PchTable) : Bool := t.slots.isEmpty

def status (t : PchTable) (ticket : Nat) : Status := t.tickets.getD ticket .abandoned

def setStatus (t : PchTable) (ticket : Nat) (s : Status) : PchTable :=
  { t with tickets := t.tickets.set ticket s }

def book (t : PchTable) (key : String) : Answer × PchTable :=
  let ticket := t.tickets.length
  (.reserved { key, ticket },
    { t with slots := t.slots.insert key (.building ticket), tickets := t.tickets ++ [.building] })

def reserve (t : PchTable) (key : String) : Answer × PchTable :=
  match t.slots.get? key with
  | some (.ready entry) => (.ready entry, t)
  | some (.building ticket) =>
    if t.status ticket = .building then (.wait ticket, t) else t.book key
  | none => t.book key

def complete (t : PchTable) (r : Reservation) (entry : PchEntry) (fromUnsaved : Bool) : PchTable :=
  { t with
    slots := t.slots.insert r.key (.ready entry)
    fromUnsaved := if fromUnsaved then t.fromUnsaved.add r.key else t.fromUnsaved.erase r.key }
    |>.setStatus r.ticket (.ready entry)

def release (t : PchTable) (r : Reservation) : PchTable :=
  { t with slots := t.slots.erase r.key, fromUnsaved := t.fromUnsaved.erase r.key }
    |>.setStatus r.ticket .failed

def abandon (t : PchTable) (r : Reservation) : PchTable := t.setStatus r.ticket .abandoned

def inFlight? (t : PchTable) (key : String) : Option Nat :=
  match t.slots.get? key with
  | some (.building ticket) => some ticket
  | _ => none

def settled (t : PchTable) (ticket : Nat) : Bool := t.status ticket ≠ .building

def outcome? (t : PchTable) (ticket : Nat) : Option PchEntry :=
  match t.status ticket with
  | .ready entry => some entry
  | _ => none

def isFromUnsaved (t : PchTable) (key : String) : Bool := t.fromUnsaved.contains key

def remove (t : PchTable) (key : String) : PchTable :=
  { t with slots := t.slots.erase key, fromUnsaved := t.fromUnsaved.erase key }

def lookupForInclude (t : PchTable) (disk : Disk) (key : String) : Option PchEntry × PchTable :=
  match t.slots.get? key with
  | some (.ready entry) =>
    if disk.isFile entry.artifactPath then (some entry, t) else (none, t.remove key)
  | _ => (none, t)

def directoryIn (db : Path) : Path := db.child "pch"

def destination (db : Path) (key : String) : Path := (directoryIn db).child (Digest.sha256Hex key)

structure Relocation where
  table : PchTable
  disk : Disk
  report : Pch.RelocationReport := {}
  log : List LogRecord := []
deriving DecidableEq, Inhabited

def relocateOne (db : Path) (r : Relocation) (key : String) : Relocation :=
  match r.table.slots.get? key with
  | some (.ready entry) =>
    let target := destination db key
    if entry.artifactPath.same target then
      { r with report := { r.report with relocated := r.report.relocated + 1 } }
    else
      let disk := if r.disk.exists target then
          (r.disk.removeFile target).toOption.getD r.disk
        else r.disk
      match disk.rename entry.artifactPath target with
      | .ok disk =>
        { r with
          table := { r.table with
            slots := r.table.slots.insert key (.ready { entry with artifactPath := target }) }
          disk
          report := { r.report with relocated := r.report.relocated + 1 } }
      | .error e =>
        { table := r.table.remove key
          disk
          report := { r.report with dropped := r.report.dropped ++ [key] }
          log := r.log ++ [{ level := .warn, source := .header
                             message := "Failed to move precompiled header "
                               ++ entry.artifactPath.text ++ " to " ++ target.text ++ ": "
                               ++ e.message }] }
  | _ => r

def relocateAll (t : PchTable) (disk : Disk) (db : Path) : Relocation :=
  match t.toMap.keys with
  | [] => { table := t, disk }
  | keys =>
    keys.foldl (relocateOne db) (match disk.createDirectories (directoryIn db) with
      | .ok disk => { table := t, disk }
      | .error e =>
        { table := t, disk := disk.tryDirectories (directoryIn db)
          log := [{ level := .warn, source := .header
                    message := "Failed to create " ++ (directoryIn db).text ++ ": "
                      ++ e.message }] })

end PchTable

end SymbolIndex
