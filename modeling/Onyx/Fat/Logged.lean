import Onyx.Fat.Call
import Onyx.Lib.Logged

-- The driver with a record of the clusters it touches; without the record it is the driver (`records_exec`).

open Lib Fat

namespace Fat32

abbrev LogM (α : Type) := Prog (AtaDrive × List Nat) FsError α

namespace Logged

variable (v : Fat32)

def readCluster (c : Nat) : LogM Bytes := do
  Prog.note c
  Prog.quiet (Prog.read (v.readCluster · c))

def writeCluster (c : Nat) (b : Bytes) : LogM Unit := do
  Prog.note c
  Prog.quiet (v.writeCluster c b)

def walkChain (first max : Nat) : LogM (List Nat) := Prog.quiet (Prog.read (v.walkChain · first max))

def scanClusters (dirCluster : Nat) : Nat → LfnRun → List Nat → LogM (List RawEntry)
  | _, _, [] => pure []
  | ci, run, c :: chain => do
    let buf ← readCluster v c
    let (out, run') := scanSlots dirCluster (ci * v.slotsPerCluster) run (slotsOf buf)
    if out.any fun e => 2 ^ 32 ≤ e.dirIndex then Prog.lift abort
    else match run' with
      | none => pure out
      | some run => do return out ++ (← scanClusters dirCluster (ci + 1) run chain)

def scanDir (dirCluster : Nat) : LogM (List RawEntry) := do
  let chain ← walkChain v dirCluster v.totalClusters
  scanClusters v dirCluster 0 .empty chain

def findIn (dirCluster : Nat) (name : Text) : LogM (Option RawEntry) := do
  let es ← scanDir v dirCluster
  return es.find? fun e => eqIgnoreAsciiCase e.name name || eqIgnoreAsciiCase e.short name

def descend (dir : Nat) : List Text → LogM Nat
  | [] => pure dir
  | comp :: comps => do
    match ← findIn v dir comp with
    | none => Prog.lift (fail .notFound)
    | some e =>
      if !e.isDir ∨ e.firstCluster < 2 then Prog.lift (fail .badFs)
      else descend e.firstCluster comps

def resolve (path : Text) : LogM (Option Resolution) :=
  match Vfs.splitPath path with
  | none => Prog.lift (fail .notSupported)
  | some parts =>
    match parts.getLast? with
    | none => pure (some .root)
    | some last => do
      let dir ← descend v v.rootCluster parts.dropLast
      return (← findIn v dir last).map .entry

def resolveParent (path : Text) : LogM (Nat × Text) :=
  match Vfs.splitPath path with
  | none => Prog.lift (fail .notSupported)
  | some parts =>
    match parts.getLast? with
    | none => Prog.lift (fail .notSupported)
    | some last => do
      let dir ← descend v v.rootCluster parts.dropLast
      return (dir, last)

def listDir (dirCluster : Nat) : LogM (List DirEntry) := do
  let es ← scanDir v dirCluster
  return (es.filter fun e => e.name ≠ Vfs.dot ∧ e.name ≠ Vfs.dotdot).map fun e =>
    { name := e.name, size := e.size, isDir := e.isDir }

def list (path : Text) : LogM (List DirEntry) := do
  match ← resolve v path with
  | some .root => listDir v v.rootCluster
  | some (.entry e) =>
    if e.isDir ∧ e.firstCluster ≥ 2 then listDir v e.firstCluster else Prog.lift (fail .notSupported)
  | none => Prog.lift (fail .notFound)

def stat (path : Text) : LogM FileStat := do
  match ← resolve v path with
  | some .root => return { size := 0, isDir := true, atime := 0, mtime := 0, ctime := 0 }
  | some (.entry e) => return {
      size := e.size, isDir := e.isDir, atime := e.atime, mtime := e.mtime, ctime := e.ctime }
  | none => Prog.lift (fail .notFound)

def deriveName (dirCluster : Nat) (name : Text) (exceptShort : Option Text) : LogM (Bytes × List Bytes) :=
  if needsLfn name then do
    let es ← scanDir v dirCluster
    let taken := (es.map (·.short)).filter fun s => !exceptShort.any (eqIgnoreAsciiCase s)
    let short ← Prog.lift (makeUniqueShort name fun cand => taken.any (eqIgnoreAsciiCase · cand))
    return (short, lfnSlots name short)
  else do
    let short ← Prog.lift (makeShortName name)
    return (short, [])

def searchRun (need : Nat) : Nat → List Nat → LogM (Option (Nat × Nat))
  | _, [] => pure none
  | ci, c :: chain => do
    let buf ← readCluster v c
    match freeRun need buf with
    | some si => pure (some (ci, si))
    | none => searchRun need (ci + 1) chain

def allocRun (dirCluster need : Nat) : LogM (List Nat × Nat × Nat) := do
  let chain ← walkChain v dirCluster v.totalClusters
  match ← searchRun v need 0 chain with
  | some (ci, si) => return (chain, ci, si)
  | none => do
    let c ← Prog.quiet (v.allocCluster chain.getLast?)
    return (chain ++ [c], chain.length, 0)

def writeRun (chain : List Nat) (ci si : Nat) (lfn : List Bytes) (slot : Bytes) : LogM Unit := do
  match chain[ci]? with
  | none => Prog.lift abort
  | some c => do
    let buf ← readCluster v c
    let buf ← Prog.lift (putSlots buf si (lfn ++ [slot]))
    writeCluster v c buf

def createEntry (now : ℤ) (dirCluster : Nat) (name : Text) (firstCluster : Nat) (isDir : Bool) : LogM RawEntry := do
  if name.contains '/' ∨ name.contains '\\' then Prog.lift (fail .notSupported)
  else do
    let _ ← walkChain v dirCluster v.totalClusters
    let (short, lfn) ← deriveName v dirCluster name none
    let (chain, ci, si) ← allocRun v dirCluster (lfn.length + 1)
    let dirIndex ← Prog.lift (checked 32 (ci * v.slotsPerCluster + si + lfn.length))
    writeRun v chain ci si lfn (packSlot short (entryAttr isDir) firstCluster 0 (.ofNow now))
    let stamp := (now % 2 ^ 32).toNat
    return {
      name
      short := trimSpaces (short.map fun b => .ofNat b.toNat)
      firstCluster
      size := 0
      atime := stamp, mtime := stamp, ctime := stamp
      isDir, dirIndex, dirCluster }

def editSlot (dirCluster idx : Nat) (edit : Bytes → Nat → Bytes) : LogM Unit := do
  let chain ← walkChain v dirCluster v.totalClusters
  match chain[idx / v.slotsPerCluster]? with
  | none => Prog.lift (fail .badFs)
  | some c => do
    let buf ← readCluster v c
    writeCluster v c (edit buf (idx % v.slotsPerCluster))

def writeDirent (now : ℤ) (e : RawEntry) : LogM Unit :=
  editSlot v e.dirCluster e.dirIndex fun buf si =>
    buf.patch (si * 32) (direntSlot now e (buf.slice (si * 32) 32))

def removeDirSlots (e : RawEntry) : LogM Unit :=
  editSlot v e.dirCluster e.dirIndex fun buf si => clearLfnBefore (markDeleted buf si) si

def readLoop (size : Nat) : Nat → List Nat → Nat → Nat → LogM Bytes
  | _, [], _, _ => pure []
  | idx, c :: chain, filePos, want => do
    let cbuf ← readCluster v c
    let inOff := filePos - idx * v.clusterBytes
    let n := min (min (v.clusterBytes - inOff) want) (size - filePos)
    let out := cbuf.slice inOff n
    if n = want ∨ filePos + n ≥ size then pure out
    else do return out ++ (← readLoop size (idx + 1) chain (filePos + n) (want - n))

def readAt (path : Text) (off len : Nat) : LogM Bytes := do
  match ← resolve v path with
  | none => Prog.lift (fail .notFound)
  | some .root => Prog.lift (fail .notSupported)
  | some (.entry e) =>
    if e.isDir then Prog.lift (fail .notSupported)
    else if e.firstCluster = 0 ∨ off ≥ e.size then pure []
    else do
      let chain ← walkChain v e.firstCluster v.totalClusters
      readLoop v e.size (off / v.clusterBytes) (chain.drop (off / v.clusterBytes)) off len

def writePart (c inOff : Nat) (part : Bytes) : LogM Unit :=
  if part.length = v.clusterBytes then writeCluster v c part
  else do
    let cbuf ← readCluster v c
    writeCluster v c (cbuf.patch inOff part)

def writeLoop : Nat → List Nat → Nat → Bytes → LogM Unit
  | _, _, _, [] => pure ()
  | _, [], _, _ => Prog.lift abort
  | idx, c :: chain, filePos, buf => do
    let inOff := filePos - idx * v.clusterBytes
    let n := min (v.clusterBytes - inOff) buf.length
    writePart v c inOff (buf.take n)
    writeLoop (idx + 1) chain (filePos + n) (buf.drop n)

def openForWrite (now : ℤ) (path : Text) : LogM RawEntry := do
  match ← resolve v path with
  | some .root => Prog.lift (fail .notSupported)
  | some (.entry e) => if e.isDir then Prog.lift (fail .notSupported) else return e
  | none => do
    let (dirCluster, name) ← resolveParent v path
    createEntry v now dirCluster name 0 false

def storeAt (now : ℤ) (e : RawEntry) (off : Nat) (buf : Bytes) : LogM Nat := do
  let newEnd ← Prog.lift (checked 64 (off + buf.length))
  if newEnd > 2 ^ 32 - 1 then Prog.lift (fail .notSupported)
  else do
    let chain ← Prog.quiet (Prog.read (v.fileChain · e.firstCluster))
    let chain' ← Prog.quiet (v.fitChain e.firstCluster chain (v.clustersFor newEnd))
    let first := if chain = [] then chain'.head?.getD e.firstCluster else e.firstCluster
    writeLoop v (off / v.clusterBytes) (chain'.drop (off / v.clusterBytes)) off buf
    writeDirent v now { e with firstCluster := first, size := max e.size newEnd }
    return buf.length

def writeAt (now : ℤ) (path : Text) (off : Nat) (buf : Bytes) : LogM Nat := do
  let e ← openForWrite v now path
  storeAt v now e off buf

def makeDir (now : ℤ) (parent : Nat) (name : Text) : LogM Unit := do
  let c ← Prog.quiet (v.allocCluster none)
  let up := if parent = v.rootCluster then 0 else parent
  writeCluster v c (dotSlot (dotName 1) c ++ dotSlot (dotName 2) up ++ List.replicate (v.clusterBytes - 64) 0)
  let _ ← createEntry v now parent name c true

def mkdir (now : ℤ) (path : Text) : LogM Unit := do
  match ← resolve v path with
  | some _ => Prog.lift (fail .alreadyExists)
  | none => do
    let (parent, name) ← resolveParent v path
    makeDir v now parent name

def deleteEntry (e : RawEntry) : LogM Unit := do
  removeDirSlots v e
  if e.firstCluster ≠ 0 then Prog.quiet (v.freeFrom e.firstCluster 0) else pure ()

def unlink (path : Text) : LogM Unit := do
  match ← resolve v path with
  | some .root => Prog.lift (fail .notSupported)
  | none => Prog.lift (fail .notFound)
  | some (.entry e) => if e.isDir then Prog.lift (fail .isDir) else deleteEntry v e

def moveEntry (e : RawEntry) (name : Text) : LogM Unit := do
  let (short, lfn) ← deriveName v e.dirCluster name (some e.short)
  let slot := packSlot short (entryAttr e.isDir) e.firstCluster e.size (.ofEntry e)
  let (chain, ci, si) ← allocRun v e.dirCluster (lfn.length + 1)
  writeRun v chain ci si lfn slot
  removeDirSlots v e

def rename (src dst : Text) : LogM Unit := do
  match ← resolve v src with
  | some .root => Prog.lift (fail .notSupported)
  | none => Prog.lift (fail .notFound)
  | some (.entry e) => do
    match ← resolve v dst with
    | some (.entry e') =>
      if e'.dirCluster = e.dirCluster ∧ e'.dirIndex = e.dirIndex then pure ()
      else Prog.lift (fail .alreadyExists)
    | some .root => Prog.lift (fail .alreadyExists)
    | none => do
      let (parent, name) ← resolveParent v dst
      if parent ≠ e.dirCluster then Prog.lift (fail .notSupported)
      else moveEntry v e name

def exec : Call → LogM Reply
  | .writeAt now path off buf => do return .written (← writeAt v now path off buf)
  | .readAt path off len => do return .bytes (← readAt v path off len)
  | .mkdir now path => do mkdir v now path; return .done
  | .list path => do return .entries (← list v path)
  | .stat path => do return .info (← stat v path)
  | .unlink path => do unlink v path; return .done
  | .rename src dst => do rename v src dst; return .done

section records

open Prog (Records)

variable {v} {h ci need : Nat} {name path : Text}

theorem records_readCluster (c : Nat) : Records (readCluster v c) (Prog.read (v.readCluster · c)) :=
  .note_bind .quiet

theorem records_writeCluster (c : Nat) (b : Bytes) : Records (writeCluster v c b) (v.writeCluster c b) :=
  .note_bind .quiet

theorem records_fail (e : FsError) : Records (Prog.lift (fail e) : LogM α) (Prog.read fun _ => fail e) :=
  .lift _

theorem records_ok (a : α) : Records (pure a : LogM α) (Prog.read fun _ => .ok a) :=
  .pure a

theorem records_scanClusters (run : LfnRun) (chain : List Nat) :
    Records (scanClusters v h ci run chain) (Prog.read (v.scanClusters · h ci run chain)) := by
  induction chain generalizing ci run with
  | nil => exact records_ok []
  | cons c chain hi =>
    refine .read_bind (records_readCluster c) fun buf => ?_
    match hscan : scanSlots h (ci * v.slotsPerCluster) run (slotsOf buf) with
    | (out, run') =>
      refine .read_ite (.lift _) ?_
      cases run' with
      | none => exact records_ok out
      | some run => exact .read_bind (hi run) fun _ => records_ok _

theorem records_scanDir : Records (scanDir v h) (Prog.read (v.scanDir · h)) :=
  .read_bind .quiet fun chain => records_scanClusters .empty chain

theorem records_findIn : Records (findIn v h name) (Prog.read (v.findIn · h name)) :=
  .read_bind records_scanDir fun _ => records_ok _

theorem records_descend (comps : List Text) : Records (descend v h comps) (Prog.read (v.descend · h comps)) := by
  induction comps generalizing h with
  | nil => exact records_ok h
  | cons comp comps hi =>
    refine .read_bind records_findIn fun o => ?_
    cases o with
    | none => exact records_fail _
    | some e => exact .read_ite (records_fail _) hi

theorem records_resolve : Records (resolve v path) (Prog.read (v.resolve · path)) := by
  unfold resolve Fat32.resolve
  cases Vfs.splitPath path with
  | none => exact records_fail _
  | some parts =>
    simp only
    cases parts.getLast? with
    | none => exact records_ok _
    | some last => exact .read_bind (records_descend _) fun _ => .read_bind records_findIn fun _ => records_ok _

theorem records_resolveParent : Records (resolveParent v path) (Prog.read (v.resolveParent · path)) := by
  unfold resolveParent Fat32.resolveParent
  cases Vfs.splitPath path with
  | none => exact records_fail _
  | some parts =>
    simp only
    cases parts.getLast? with
    | none => exact records_fail _
    | some last => exact .read_bind (records_descend _) fun _ => records_ok _

theorem records_deriveName (ex : Option Text) :
    Records (deriveName v h name ex) (Prog.read (v.deriveName · h name ex)) := by
  refine .read_ite ?_ ?_
  · exact .read_bind records_scanDir fun _ => .read_bind (.lift _) fun _ => records_ok _
  · exact .read_bind (.lift _) fun _ => records_ok _

theorem records_listDir : Records (listDir v h) (Prog.read (v.listDir · h)) :=
  .read_bind records_scanDir fun _ => records_ok _

theorem records_list : Records (list v path) (Prog.read (v.list · path)) := by
  refine .read_bind records_resolve fun o => ?_
  match o with
  | none => exact records_fail _
  | some .root => exact records_listDir
  | some (.entry e) => exact .read_ite records_listDir (records_fail _)

theorem records_stat : Records (stat v path) (Prog.read (v.stat · path)) := by
  refine .read_bind records_resolve fun o => ?_
  match o with
  | none => exact records_fail _
  | some .root => exact records_ok _
  | some (.entry e) => exact records_ok _

theorem records_readLoop (size idx : Nat) (chain : List Nat) (filePos want : Nat) :
    Records (readLoop v size idx chain filePos want) (Prog.read (v.readLoop · size idx chain filePos want)) := by
  induction chain generalizing idx filePos want with
  | nil => exact records_ok []
  | cons c chain hi =>
    refine .read_bind (records_readCluster c) fun cbuf => ?_
    exact .read_ite (records_ok _) (.read_bind (hi ..) fun _ => records_ok _)

theorem records_readAt (off len : Nat) : Records (readAt v path off len) (Prog.read (v.readAt · path off len)) := by
  refine .read_bind records_resolve fun o => ?_
  match o with
  | none => exact records_fail _
  | some .root => exact records_fail _
  | some (.entry e) =>
    exact .read_ite (records_fail _) (.read_ite (records_ok []) (.read_bind .quiet fun _ => records_readLoop ..))

theorem records_searchRun (chain : List Nat) :
    Records (searchRun v need ci chain) (Prog.read (v.searchRun · need ci chain)) := by
  induction chain generalizing ci with
  | nil => exact records_ok none
  | cons c chain hi =>
    refine .read_bind (records_readCluster c) fun buf => ?_
    cases freeRun need buf with
    | none => exact hi
    | some si => exact records_ok _

theorem records_allocRun : Records (allocRun v h need) (v.allocRun h need) := by
  refine .bind .quiet fun chain => .bind (records_searchRun chain) fun o => ?_
  match o with
  | some (ci, si) => exact .pure _
  | none => exact .bind .quiet fun _ => .pure _

theorem records_writeRun (chain : List Nat) (ci si : Nat) (lfn : List Bytes) (slot : Bytes) :
    Records (writeRun v chain ci si lfn slot) (v.writeRun chain ci si lfn slot) := by
  unfold writeRun Fat32.writeRun
  cases chain[ci]? with
  | none => exact .lift _
  | some c => exact .bind (records_readCluster c) fun _ => .bind (.lift _) fun _ => records_writeCluster ..

theorem records_createEntry (now : ℤ) (first : Nat) (isDir : Bool) :
    Records (createEntry v now h name first isDir) (v.createEntry now h name first isDir) :=
  .ite (.lift _) (.bind .quiet fun _ => .bind (records_deriveName none) fun _ => .bind records_allocRun fun _ =>
    .bind (.lift _) fun _ => .bind (records_writeRun ..) fun _ => .pure _)

theorem records_editSlot (idx : Nat) (edit : Bytes → Nat → Bytes) :
    Records (editSlot v h idx edit) (v.editSlot h idx edit) := by
  refine .bind .quiet fun chain => ?_
  cases chain[idx / v.slotsPerCluster]? with
  | none => exact .lift _
  | some c => exact .bind (records_readCluster c) fun _ => records_writeCluster ..

theorem records_writePart (c inOff : Nat) (part : Bytes) :
    Records (writePart v c inOff part) (v.writePart c inOff part) :=
  .ite (records_writeCluster ..) (.bind (records_readCluster c) fun _ => records_writeCluster ..)

theorem records_writeLoop (idx : Nat) (chain : List Nat) (filePos : Nat) (buf : Bytes) :
    Records (writeLoop v idx chain filePos buf) (v.writeLoop idx chain filePos buf) := by
  induction chain generalizing idx filePos buf with
  | nil =>
    cases buf with
    | nil => exact .pure ()
    | cons b _ => exact .lift _
  | cons c chain hi =>
    cases buf with
    | nil => exact .pure ()
    | cons b _ => exact .bind (records_writePart ..) fun _ => hi ..

theorem records_openForWrite (now : ℤ) : Records (openForWrite v now path) (v.openForWrite now path) := by
  refine .bind records_resolve fun o => ?_
  match o with
  | none => exact .bind records_resolveParent fun _ => records_createEntry ..
  | some .root => exact .lift _
  | some (.entry e) => exact .ite (.lift _) (.pure e)

theorem records_storeAt (now : ℤ) (e : RawEntry) (off : Nat) (buf : Bytes) :
    Records (storeAt v now e off buf) (v.storeAt now e off buf) := by
  refine .bind (.lift _) fun newEnd => .ite (.lift _) ?_
  exact .bind .quiet fun _ => .bind .quiet fun _ => .bind (records_writeLoop ..) fun _ =>
    .bind (records_editSlot ..) fun _ => .pure _

theorem records_makeDir (now : ℤ) : Records (makeDir v now h name) (v.makeDir now h name) :=
  .bind .quiet fun _ => .bind (records_writeCluster ..) fun _ => .bind (records_createEntry ..) fun _ => .pure _

theorem records_mkdir (now : ℤ) : Records (mkdir v now path) (v.mkdir now path) := by
  refine .bind records_resolve fun o => ?_
  cases o with
  | none => exact .bind records_resolveParent fun _ => records_makeDir now
  | some _ => exact .lift _

theorem records_unlink : Records (unlink v path) (v.unlink path) := by
  refine .bind records_resolve fun o => ?_
  match o with
  | none => exact .lift _
  | some .root => exact .lift _
  | some (.entry e) =>
    exact .ite (.lift _) (.bind (records_editSlot ..) fun _ => .ite .quiet (.pure ()))

theorem records_moveEntry (e : RawEntry) : Records (moveEntry v e name) (v.moveEntry e name) :=
  .bind (records_deriveName _) fun _ => .bind records_allocRun fun _ => .bind (records_writeRun ..) fun _ =>
    records_editSlot ..

theorem records_rename (src dst : Text) : Records (rename v src dst) (v.rename src dst) := by
  refine .bind records_resolve fun o => ?_
  match o with
  | none => exact .lift _
  | some .root => exact .lift _
  | some (.entry e) =>
    refine .bind records_resolve fun o' => ?_
    match o' with
    | some .root => exact .lift _
    | some (.entry e') => exact .ite (.pure ()) (.lift _)
    | none => exact .bind records_resolveParent fun _ => .ite (.lift _) (records_moveEntry e)

theorem records_exec (c : Call) : Records (exec v c) (v.exec c) := by
  cases c with
  | writeAt now path off buf => exact .bind (.bind (records_openForWrite now) fun _ => records_storeAt ..) fun _ => .pure _
  | readAt path off len => exact .bind (records_readAt off len) fun _ => .pure _
  | mkdir now path => exact .bind (records_mkdir now) fun _ => .pure _
  | list path => exact .bind records_list fun _ => .pure _
  | stat path => exact .bind records_stat fun _ => .pure _
  | unlink path => exact .bind records_unlink fun _ => .pure _
  | rename src dst => exact .bind (records_rename src dst) fun _ => .pure _

end records

end Logged

def touched (v : Fat32) (c : Call) (d : AtaDrive) : List Nat := ((Logged.exec v c).run (d, [])).2.2

end Fat32
