import SealedLog.Chain.Audit
import SealedLog.Event.Basic
import SealedLog.Log.Record
import SealedLog.Log.Recovery

/-!
# A demonstration

A log with small trees records ten calls. A caller finds its event in the log; then the
event is overwritten where it is kept, and the check fails. The stored chain is audited
as it is, and once more after a name in its first event was changed.

`Demo.transcript` is what the demonstration prints, line by line.
-/

namespace SealedLog.Demo

def short (hash : Hash) : String :=
  String.ofList (hash.toList.take 16)

/-- Replaces every occurrence of `old`, which is not empty, by `new`. -/
def replaceText (old new : List Char) : (fuel : Nat) → List Char → List Char
  | 0, cs => cs
  | _, [] => []
  | fuel + 1, c :: cs =>
    if old.isPrefixOf (c :: cs) then
      new ++ replaceText old new fuel ((c :: cs).drop old.length)
    else c :: replaceText old new fuel cs

/-- As `replaceText`, for texts. -/
def replaceIn (text old new : String) : String :=
  String.ofList (replaceText old.toList new.toList text.length text.toList)

/-- The callers of the ten calls. -/
def callers : List String :=
  ["alice", "bob", "carol", "dave", "erin", "frank", "grace", "heidi", "ivan", "judy"]

def call (ids : Nat → Uuid) (startedAt : Instant) (i : Nat) (caller : String) : Event :=
  let params := Json.obj [("amount", .nat (100 * (i + 1))), ("password", .str "hunter2")]
  .make (ids i) caller "transfer" params .success startedAt 12 (.ofFields ["password"])

/-- The log and its store after some payloads, and what was printed on the way. -/
structure Progress where
  log : Log
  store : Shelf
  lines : List String

/-- Records one payload and notes the tree that was sealed for it. -/
def Progress.record (p : Progress) (payload : String) : Except LogError Progress :=
  match p.log.record p.store 0 payload with
  | (.error e, _, _) => .error e
  | (.ok receipt, log, store) =>
    let line := receipt.sealedTree?.map fun t =>
      "   ⛓  Tree " ++ toString t.treeIndex ++ " sealed at " ++ short t.rootHash
    .ok ⟨log, store, p.lines ++ line.toList⟩

def title : List String := [
  "╔════════════════════════════════════════════════╗",
  "║  Audit Log - Tamper Demo                       ║",
  "║  Chained Merkle Trees over Every Call          ║",
  "╚════════════════════════════════════════════════╝",
  ""]

def summary : List String := [
  "╔════════════════════════════════════════════════╗",
  "║  Summary                                       ║",
  "╠════════════════════════════════════════════════╣",
  "║  ✓ Every call lands in a Merkle leaf           ║",
  "║  ✓ In-place edits break the hash path          ║",
  "║  ✓ Sealed roots chain trees together           ║",
  "╚════════════════════════════════════════════════╝"]

/-- A fault as the demonstration shows it. -/
def showFault : FaultKind → String
  | .rootMismatch recorded rebuilt =>
    "RootMismatch \x7b expected: " ++ Text.quoted recorded ++ ", actual: " ++
      Text.quoted rebuilt ++ " \x7d"
  | .levelMismatch level => "LevelMismatch \x7b level: " ++ toString level ++ " \x7d"
  | .brokenLink => "BrokenLink"
  | .missingTree => "MissingTree"
  | .duplicateTree => "DuplicateTree"

/-- A check as the demonstration shows one that it did not expect. -/
def showInclusion : Inclusion → String
  | .verified leafIndex pathLen =>
    "Verified \x7b leaf_index: " ++ toString leafIndex ++ ", path_len: " ++
      toString pathLen ++ " \x7d"
  | .notFound => "NotFound"
  | .mismatch level => "Mismatch \x7b level: " ++ toString level ++ " \x7d"

def foundLines : Inclusion → List String
  | .verified leafIndex pathLen =>
    ["   ✓ Found in leaf " ++ toString leafIndex ++ ", " ++ toString pathLen ++
      " hashes up to the root"]
  | other => ["   ✗ Unexpected: " ++ showInclusion other]

def forgedLines : Inclusion → List String
  | .mismatch level =>
    ["   ✗ TAMPERING DETECTED at level " ++ toString level,
      "   ✗ Recomputed hash does not match the stored one"]
  | other => ["   ? " ++ showInclusion other]

/-- A list of leaves with the name in its first block changed. -/
def forgeFirst : List (List String) → List (List String)
  | (block :: blocks) :: leaves => (replaceIn block "alice" "mallory" :: blocks) :: leaves
  | leaves => leaves

/-- The snapshots with the first event of the first tree changed. -/
def forgeGenesis : List Snapshot → List Snapshot
  | [] => []
  | s :: rest =>
    if s.treeIndex = 0 then { s with leafBlocks := forgeFirst s.leafBlocks } :: rest
    else s :: forgeGenesis rest

/-- What the demonstration prints, given the identifiers and the time of the calls. -/
def transcript (ids : Nat → Uuid) (startedAt : Instant) : Except LogError (List String) := do
  let (opened, store) := Log.start Shelf.empty ⟨2⟩ 0
  let log ← opened
  let payloads := callers.zipIdx.map fun (caller, i) => (call ids startedAt i caller).payload
  let p ← payloads.foldlM Progress.record ⟨log, store, []⟩
  let checkpoint := p.log.checkpoint
  let mine := payloads.getLast?.getD ""
  let forged := replaceIn mine "\"amount\":1000" "\"amount\":1"
  let (tampered, _) := p.log.tamper mine forged
  let report := Chain.audit p.store.snapshots
  let forgedReport := Chain.audit (forgeGenesis p.store.snapshots)
  return title ++
    ["📝 Step 1: Service records audited calls",
      "   ─────────────────────────────────────"] ++
    p.lines ++
    ["   Events: " ++ toString payloads.length,
      "   Current tree: " ++ toString checkpoint.treeIndex,
      "   Root: " ++ short checkpoint.rootHash,
      "   ✓ Passwords stored as [REDACTED]",
      "",
      "🔍 Step 2: Caller checks its event is in the log",
      "   ─────────────────────────────────────────────"] ++
    foundLines (p.log.check mine) ++
    ["",
      "😈 Step 3: Rogue admin rewrites an event",
      "   ──────────────────────────────────────",
      "   Original amount: 1000",
      "   Forged amount:   1",
      "   ⚠️  Block edited in place, hashes left alone",
      "",
      "✓ Step 4: Verify the forged event",
      "   ───────────────────────────────"] ++
    forgedLines (tampered.check forged) ++
    ["",
      "🔐 Step 5: Audit the persisted chain",
      "   ─────────────────────────────────",
      "   Trees checked: " ++ toString report.treesChecked ++ ", intact: " ++
        (if report.isIntact then "true" else "false")] ++
    forgedReport.faults.map (fun f =>
      "   ✗ tree " ++ toString f.treeIndex ++ ": " ++ showFault f.kind) ++
    [""] ++ summary

end SealedLog.Demo
