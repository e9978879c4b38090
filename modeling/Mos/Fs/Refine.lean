import Mos.Fs.Created
import Mos.Fs.Leak
import Mos.Fs.Prune
import Mos.Fs.Rewrite

namespace Mos.Fs

open FileTree (Change)

def Denotes (t : Server) (fileid : Word) (path : List (List Byte)) : Prop := ∃ f, OpenFile t fileid f ∧ At t.fs.content path f

/-- The changes of the tree with which the server answers. A file that is made may be a directory without `O_MKDIR`, when its
    slot was one before. -/
def Answers (t : Server) : ServeOp → Change (List Byte) FileNode → Prop
  | .fsreqOpen path omode, change => change = .stay ∨
      omode &&& oCreat ≠ 0 ∧ (change = .add (pathElements path) .dir ∨
        omode &&& oMkdir = 0 ∧ change = .add (pathElements path) (.file .empty)) ∨
      omode &&& oTrunc ≠ 0 ∧ ∃ d, treeOf t.fs.content (pathElements path) = some (.file d) ∧
        change = .write (pathElements path) (.file (d.resize 0))
  | .fsreqMap fileid offset, change => change = .stay ∨
      ∃ path d page, Denotes t fileid path ∧ treeOf t.fs.content path = some (.file d) ∧
        change = .write path (.file (d.fill (offset.toNat / 4096) page))
  | .fsreqSetSize fileid size, change => change = .stay ∧ (∀ path, ¬ Denotes t fileid path) ∨
      ∃ path d, Denotes t fileid path ∧ treeOf t.fs.content path = some (.file d) ∧ change = .write path (.file (d.resize size))
  | .fsreqRemove path, change =>
      change = .prune (pathElements path) ∧ treeOf t.fs.content (pathElements path) ≠ none ∨
      change = .stay ∧ (treeOf t.fs.content (pathElements path) = none ∨ RunsOut t.fs.memory)
  | .store b k v, change => ∃ path f i d small, At t.fs.content path f ∧ t.fs.content.target f (some i) = b ∧
      treeOf t.fs.content path = some (.file d) ∧ change = .write path (.file (d.store i ⟨k, small⟩ v))
  | _, change => change = .stay

/-- The requests and stores that are for files with a path. -/
structure TreeGuard (t : Server) (op : ServeOp) : Prop where
  clean : ∀ u, serveStep t op = some u → CleanMeta u.fs
  creates : ∀ path omode i u, op = .fsreqOpen path omode → omode &&& oCreat ≠ 0 → openAlloc t = .ok i u → ¬ GrowRefused path u.fs
  truncates : ∀ path omode i u f s, op = .fsreqOpen path omode → omode &&& oTrunc ≠ 0 → openAlloc t = .ok i u →
    openFind path omode u.fs = .ok f s → s.content.field f 33 ≠ ftypeDir
  maps : ∀ fileid offset f, op = .fsreqMap fileid offset → OpenFile t fileid f →
    (∃ path, Leads t.fs.content path f) ∧ offset.toNat / 4096 < t.fs.content.extent f
  sets : ∀ fileid size f, op = .fsreqSetSize fileid size → OpenFile t fileid f →
    (∃ path, Leads t.fs.content path f) ∧ size.toNat ≤ 0xFFFFF000
  stores : ∀ b k v, op = .store b k v → b ≠ 0 ∧ t.fs.cache b ≠ none ∧
    ∃ path f i, Leads t.fs.content path f ∧ t.fs.content.target f (some i) = b

/-- The server's tree is regular, and the bitmap and the open files are in the cache. -/
structure Tended (t : Server) : Prop extends FilesCached t where
  regular : Regular t.fs.content
  charted : Charted t.fs

/-- What a request leaves in the store is an answer of the abstract tree. -/
structure Answered (t : Server) (op : ServeOp) (u : Store) : Prop extends Steady u where
  nblocks : u.content.nblocks = t.fs.content.nblocks
  change : ∃ change, Answers t op change ∧ FileTree.Allowed .dir (treeOf t.fs.content) change ∧
    treeOf u.content = FileTree.apply (treeOf t.fs.content) change

variable {t u : Server} {op : ServeOp} {s v : Store} {path : List Byte} {omode : Word} {names : List (List Byte)} {f : FilePtr} {i : Nat}

theorem Tended.steady (tended : Tended t) : Steady t.fs := ⟨tended.super, tended.regular⟩

theorem Answered.stay (tended : Tended t) (answers : Answers t op .stay) (read : Read t.fs s) : Answered t op s where
  toSteady := tended.steady.read read
  nblocks := by rw [read.content]
  change := ⟨.stay, answers, trivial, by rw [read.content]; rfl⟩

theorem Answered.read (answered : Answered t op s) (read : Read s v) : Answered t op v where
  toSteady := answered.toSteady.read read
  nblocks := read.content ▸ answered.nblocks
  change := read.content ▸ answered.change

theorem Answered.write {d : Contents} (tended : Tended t) (file : Leads t.fs.content names f) (super : s.cache 1 ≠ none)
    (nblocks : s.content.nblocks = t.fs.content.nblocks) (rewritten : Rewritten f t.fs.content s.content)
    (node : s.content.node f = .file d) (answers : Answers t op (.write names (.file d))) : Answered t op s where
  super := super
  regular := rewritten.keeps tended.regular file.leads.reach (file.file tended.regular).2
    (file.leads.not_dead (file.file tended.regular).2)
  nblocks := nblocks
  change := by
    obtain ⟨before, notRoot⟩ := file.file tended.regular
    have other : ∀ d, FileNode.file d ≠ .dir := fun _ same => by cases same
    refine ⟨_, answers, ⟨other d, _, before, other _⟩, ?_⟩
    rw [rewritten.treeOf tended.regular file.leads.reach notRoot file.leads, node]
    rfl

theorem Answered.same (tended : Tended t) (file : Leads t.fs.content names f) (super : s.cache 1 ≠ none)
    (nblocks : s.content.nblocks = t.fs.content.nblocks) (rewritten : Rewritten f t.fs.content s.content)
    (node : s.content.node f = t.fs.content.node f) (answers : Answers t op .stay) : Answered t op s where
  super := super
  regular := rewritten.keeps tended.regular file.leads.reach (file.file tended.regular).2
    (file.leads.not_dead (file.file tended.regular).2)
  nblocks := nblocks
  change := by
    refine ⟨.stay, answers, trivial, ?_⟩
    rw [rewritten.treeOf tended.regular file.leads.reach (file.file tended.regular).2 file.leads, node,
      ← treeOf_at tended.regular.distinct file.leads]
    exact Function.update_eq_self ..

/-- The file that `serve_open` finds or makes is what the path leads to. -/
structure OpensAt (path : List Byte) (omode : Word) (s : Store) (f : FilePtr) (v : Store) : Prop extends Steady v where
  cached : v.cache f.block ≠ none
  nblocks : v.content.nblocks = s.content.nblocks
  leads : At v.content (pathElements path) f
  tree : treeOf v.content = treeOf s.content ∨ omode &&& oCreat ≠ 0 ∧ ∃ node,
    (node = .dir ∨ omode &&& oMkdir = 0 ∧ node = .file .empty) ∧
    FileTree.Allowed .dir (treeOf s.content) (.add (pathElements path) node) ∧
    treeOf v.content = FileTree.apply (treeOf s.content) (.add (pathElements path) node)

theorem openFind_opens (steady : Steady s) (allowed : omode &&& oCreat ≠ 0 → ¬ GrowRefused path s) :
    (openFind path omode s).Meets (fun f v => CleanMeta v → OpensAt path omode s f v)
      (fun v => Steady v ∧ Remarked s.content v.content) fun _ => True := by
  have regular := steady.regular
  unfold openFind
  split
  · rename_i creat
    refine (fileCreate_created steady (allowed creat)).bind fun f v created => ?_
    by_cases mkdir : omode &&& oMkdir ≠ 0
    · rw [if_pos mkdir]
      intro clean
      have created := created clean
      obtain ⟨rewritten, node, super⟩ := created.retyped
      have reach := created.leads.reach
      have notRoot := created.notRoot
      have keeps := rewritten.keeps created.regular reach notRoot (created.leads.not_dead notRoot)
      refine ⟨⟨super, keeps⟩, setWord_cached created.cached,
        (rewritten.confined.nblocks created.regular.toExclusive reach).trans created.nblocks,
        (rewritten.at created.regular reach).mpr created.leads, .inr ⟨creat, .dir, .inl rfl, created.allowed regular.distinct _, ?_⟩⟩
      rw [rewritten.treeOf created.regular reach notRoot created.leads, node, created.treeOf regular.distinct]
      exact Function.update_idem ..
    · rw [if_neg mkdir]
      intro clean
      have created := created clean
      refine ⟨created.toSteady, created.cached, created.nblocks, created.leads,
        .inr ⟨creat, _, created.node.imp id fun empty => ⟨not_not.mp mkdir, empty⟩, created.allowed regular.distinct _,
          created.treeOf regular.distinct⟩⟩
  · obtain ⟨w, v, walked, answer, shows, -, cached⟩ := steady.ready.walk path
    have steady' := steady.shows shows
    unfold fileOpen
    rw [walked, Result.ok_bind]
    split
    · rename_i g found
      exact fun _ => ⟨steady', cached g found, shows.marked.nblocks regular.toExclusive,
        (shows.marked.at regular.toExclusive).mpr (answer.found_at found), .inl (shows.marked.treeOf regular)⟩
    · exact ⟨steady', shows.marked⟩

theorem OpensAt.of_read (opens : OpensAt path omode u.fs f v) (read : Read t.fs u.fs) : OpensAt path omode t.fs f v where
  toSteady := opens.toSteady
  cached := opens.cached
  nblocks := read.content ▸ opens.nblocks
  leads := opens.leads
  tree := read.content ▸ opens.tree

theorem OpensAt.answered (opens : OpensAt path omode t.fs f v) : Answered t (.fsreqOpen path omode) v where
  toSteady := opens.toSteady
  nblocks := opens.nblocks
  change := by
    rcases opens.tree with same | ⟨creat, node, kind, allowed, tree⟩
    · exact ⟨.stay, .inl rfl, trivial, same⟩
    · refine ⟨_, .inr (.inl ⟨creat, ?_⟩), allowed, tree⟩
      rcases kind with rfl | ⟨mkdir, rfl⟩
      · exact .inl rfl
      · exact .inr ⟨mkdir, rfl⟩

theorem OpensAt.cut (opens : OpensAt path omode t.fs f v) (charted : Charted v) (trunc : omode &&& oTrunc ≠ 0)
    (notDir : v.content.field f 33 ≠ ftypeDir) :
    (fileSetSize f 0 v).Leaves (Answered t (.fsreqOpen path omode)) fun _ => True := by
  have regular' := opens.regular
  have file : Leads v.content (pathElements path) f := ⟨opens.leads, notDir⟩
  obtain ⟨here, notRoot⟩ := file.file regular'
  have reach := file.leads.reach
  refine Result.Leaves.mono (fileSetSize_resizes opens.toSteady charted file opens.cached (by decide)) fun w after => ?_
  obtain ⟨rewritten, super, node⟩ := after
  have keeps := rewritten.keeps regular' reach notRoot (file.leads.not_dead notRoot)
  have tree := rewritten.treeOf regular' reach notRoot file.leads
  rw [node] at tree
  refine ⟨⟨super, keeps⟩, (rewritten.confined.nblocks regular'.toExclusive reach).trans opens.nblocks, ?_⟩
  rcases opens.tree with same | ⟨creat, made, kind, allowed, added⟩
  · rw [same] at here tree
    have other : ∀ d, FileNode.file d ≠ .dir := fun _ same => by cases same
    exact ⟨_, .inr (.inr ⟨trunc, _, here, rfl⟩), ⟨other _, _, here, other _⟩, tree⟩
  · have fresh : some made = some (.file (v.content.contents f)) := by
      rw [← here, added, FileTree.apply_add]
    rcases kind with rfl | ⟨mkdir, rfl⟩
    · cases fresh
    · have empty : v.content.contents f = .empty := (FileNode.file.inj (Option.some.inj fresh)).symm
      refine ⟨_, .inr (.inl ⟨creat, .inr ⟨mkdir, rfl⟩⟩), allowed, ?_⟩
      rw [tree, empty, Contents.resize_empty, added]
      exact Function.update_idem ..

section Requests

variable (tended : Tended t)
include tended

theorem serveRemove_answered :
    (serveRemove path t).Leaves (fun u => Answered t (.fsreqRemove path) u.fs) fun _ => True := by
  have removed : (fileRemove path t.fs).Leaves _ _ := fileRemove_prunes tended.steady
  refine withFs_kept (E := Answered t (.fsreqRemove path)) (reply_kept (Result.Leaves.mono removed fun s after => ?_) _)
  obtain ⟨⟨steady, nblocks⟩, ⟨same, absent⟩ | ⟨pruned, present⟩⟩ := after
  · exact ⟨steady, nblocks, .stay, .inr ⟨rfl, absent⟩, trivial, same⟩
  · exact ⟨steady, nblocks, .prune (pathElements path), .inl ⟨rfl, present⟩, present, pruned⟩

theorem serveSetSize_answered {fileid size : Word} (guard : TreeGuard t (.fsreqSetSize fileid size)) :
    (serveSetSize fileid size t).Leaves (fun u => Answered t (.fsreqSetSize fileid size) u.fs) fun _ => True := by
  unfold serveSetSize
  by_cases opened : ∃ f, OpenFile t fileid f
  · obtain ⟨f, opened⟩ := opened
    obtain ⟨⟨names, file⟩, bounded⟩ := guard.sets fileid size f rfl opened
    rw [onOpen_file opened]
    have resizes := fileSetSize_resizes tended.steady tended.charted file (tended.opened _ f opened.file) bounded
    refine withFs_kept (E := Answered t (.fsreqSetSize fileid size)) (reply_kept (Result.Leaves.mono resizes fun s after => ?_) _)
    obtain ⟨rewritten, super, node⟩ := after
    exact .write tended file super (rewritten.confined.nblocks tended.regular.toExclusive file.leads.reach) rewritten node
      (.inr ⟨names, _, ⟨f, opened, file.leads⟩, (file.file tended.regular).1, rfl⟩)
  · refine onOpen_leaves (E := Answered t (.fsreqSetSize fileid size)) (.stay tended (.inl ⟨rfl, ?_⟩) (Read.refl _)) fun f had => ?_
    · rintro path ⟨f, had, -⟩
      exact opened ⟨f, had⟩
    · exact absurd ⟨f, had⟩ opened

theorem serveMap_answered {fileid offset : Word} (guard : TreeGuard t (.fsreqMap fileid offset)) :
    (serveMap fileid offset t).Leaves (fun u => CleanMeta u.fs → Answered t (.fsreqMap fileid offset) u.fs) fun _ => True := by
  have filled : (onOpen fileid (fun f fs => (fileGetBlock f (offset.toNat / 4096) fs).bind fun b fs => .ok (.block b) fs) t).Leaves
      (fun u => CleanMeta u.fs → Answered t (.fsreqMap fileid offset) u.fs) fun _ => True := by
    refine onOpen_leaves (E := fun s => CleanMeta s → Answered t (.fsreqMap fileid offset) s)
      (fun _ => .stay tended (.inl rfl) (Read.refl _)) fun f opened => ?_
    obtain ⟨⟨names, file⟩, inside⟩ := guard.maps fileid offset f rfl opened
    have fills := fileGetBlock_fills tended.steady file (tended.opened _ f opened.file) inside
    refine reply_kept (Result.Leaves.mono fills fun s filled clean => ?_) Reply.block
    have filled := filled clean
    rcases filled.node with same | ⟨page, node⟩
    · exact .same tended file filled.super filled.nblocks filled.rewritten same (.inl rfl)
    · exact .write tended file filled.super filled.nblocks filled.rewritten node
        (.inr ⟨names, _, page, ⟨f, opened, file.leads⟩, (file.file tended.regular).1, rfl⟩)
  refine Result.Meets.bind filled fun r u answered => ?_
  cases r with
  | block b => exact answered
  | code c => exact answered
  | opened i => exact answered

theorem store_answered {b k : Nat} {x : Word} (guard : TreeGuard t (.store b k x)) (small : k < 1024) :
    Answered t (.store b k x) (t.fs.setWord b k x) := by
  obtain ⟨nonzero, cached, names, f, i, file, rfl⟩ := guard.stores b k x rfl
  obtain ⟨rewritten, super, nblocks, node⟩ := setWord_stores (v := x) tended.steady file nonzero cached small
  exact .write tended file super nblocks rewritten node
    ⟨names, f, i, _, small, file.leads, rfl, (file.file tended.regular).1, rfl⟩

theorem serveOpen_answered (guard : TreeGuard t (.fsreqOpen path omode)) :
    (serveOpen path omode t).Leaves (fun u => CleanMeta u.fs → Answered t (.fsreqOpen path omode) u.fs) fun _ => True := by
  have alloc := openAlloc_table t
  unfold serveOpen
  cases run : openAlloc t with
  | stop cause => trivial
  | err r u =>
    rw [run] at alloc
    exact fun _ => .stay tended (.inl rfl) alloc.2
  | ok i u =>
    rw [run] at alloc
    have read := alloc.2.2
    have steady := tended.steady.read read
    have find : (openFind path omode u.fs).Meets _ _ _ := openFind_opens steady fun creat => guard.creates path omode i u rfl creat run
    have grows := openFind_kept (cached_kept fun x => t.fs.cache x ≠ none) path omode read.cached
    rw [Result.ok_bind]
    cases found : openFind path omode u.fs with
    | stop cause => trivial
    | err r v =>
      rw [found] at find
      obtain ⟨steady', marked⟩ := find
      have same : treeOf v.content = treeOf t.fs.content := by rw [marked.treeOf steady.regular, read.content]
      have nblocks : v.content.nblocks = t.fs.content.nblocks := by rw [marked.nblocks steady.regular.toExclusive, read.content]
      exact fun _ => ⟨steady', nblocks, .stay, .inl rfl, trivial, same⟩
    | ok f v =>
      rw [found] at find grows
      have cut : (if omode &&& oTrunc ≠ 0 then fileSetSize f 0 v else .ok () v).Leaves
          (fun w => CleanMeta w → Answered t (.fsreqOpen path omode) w) fun _ => True := by
        by_cases clean : CleanMeta v
        · have opens := (find clean).of_read read
          split
          · rename_i trunc
            have charted := tended.charted.of_cached opens.nblocks grows
            exact Result.Leaves.mono (opens.cut charted trunc (guard.truncates path omode i u f v rfl trunc run found))
              fun w answered _ => answered
          · exact fun _ => opens.answered
        · split
          · exact Result.Leaves.mono (fileSetSize_kept spoiled_kept trivial 0 clean) fun w spoiled clean => absurd clean spoiled
          · exact fun good => absurd good clean
      show Result.Leaves (if _ then _ else _) _ _
      split
      · exact fun clean => ((find clean).of_read read).answered
      · exact (withFs_kept (E := fun w => CleanMeta w → Answered t (.fsreqOpen path omode) w) cut).bind fun _ w answered => answered

end Requests

theorem serveStep_answered (tended : Tended t) (guard : TreeGuard t op) (next : serveStep t op = some u) : Answered t op u.fs := by
  have clean := guard.clean u next
  have reads : Answers t op .stay → ∀ {r : SRes Reply}, r.Leaves (fun v => Read t.fs v.fs) (fun _ => True) → r.state = some u →
      Answered t op u.fs := fun answers _ left state => .stay tended answers (left.state state)
  have wild : ∀ {fileid : Word} {body : FilePtr → Store → Res Reply}, (∀ f, (body f t.fs).Leaves (Read t.fs) fun _ => True) →
      (onOpen fileid body t).Leaves (fun v => Read t.fs v.fs) fun _ => True := fun read =>
    onOpen_leaves (E := Read t.fs) (Read.refl _) fun f _ => read f
  cases op <;> simp only [serveStep] at next
  case fsreqOpen path omode => exact (serveOpen_answered tended guard).state next clean
  case fsreqMap fileid offset => exact (serveMap_answered tended guard).state next clean
  case fsreqSetSize fileid size => exact (serveSetSize_answered tended guard).state next
  case fsreqClose fileid => exact reads rfl (wild fun f => reply_kept (fileClose_kept (read_kept _) (Read.refl _)) _) next
  case fsreqDirty fileid offset =>
    exact reads rfl (wild fun f => reply_kept (fileDirty_kept (read_kept _) offset (Read.refl _)) _) next
  case fsreqRemove path => exact (serveRemove_answered tended).state next
  case fsreqSync =>
    exact reads rfl (withFs_kept (E := Read t.fs) (reply_kept (fsSync_kept (read_kept _) (Read.refl _)) _)) next
  case shareFd i =>
    split at next <;> cases next
    exact .stay tended rfl (Read.refl _)
  case dropFd i =>
    split at next <;> cases next
    exact .stay tended rfl (Read.refl _)
  case store b k x =>
    split at next
    · rename_i both
      cases next
      exact store_answered tended guard both.2
    · cases next

theorem Answered.tended (answered : Answered t op u.fs) (tended : Tended t) (next : serveStep t op = some u) : Tended u where
  toFilesCached := (serveStep_table tended.super next).cached tended.toFilesCached
  regular := answered.regular
  charted := tended.charted.of_cached answered.nblocks (serveStep_table tended.super next).grows

/-- `walk_path` finds what the tree has at the path. -/
theorem Tended.lookup (tended : Tended t) (path : List Byte) : ∃ r x, walkPathLoop path t.fs = .ok r x ∧
    (r.code = -eNoMem ∧ r.file = none ∧ RunsOut t.fs.memory ∨
      match treeOf t.fs.content (pathElements path) with
      | some node => r.code = 0 ∧ ∃ f, r.file = some f ∧ t.fs.content.node f = node
      | none => r.code ≠ 0 ∧ r.file = none) := by
  obtain ⟨r, x, walked, answer, -⟩ := tended.steady.ready.walk path
  exact ⟨r, x, (walkPathLoop_eq path t.fs).trans walked, answer.tree tended.regular.distinct⟩

theorem Tended.boot {disk : Image} {memory : Nat → Bool} (regular : Regular disk) (size : 2 < disk.nblocks)
    (booted : serverInit disk memory = some t) (charted : Charted t.fs) : Tended t ∧ treeOf t.fs.content = treeOf disk := by
  obtain ⟨boot, files⟩ := serverInit_booted booted
  have carried : Carried disk t.fs.content := fun b w low _ _ _ _ => congrFun (boot.content b (Nat.ne_of_gt low)) w
  have exclusive := regular.toExclusive
  refine ⟨{ super := boot.super, opened := fun i f had => ?_, regular := carried.keeps size exclusive regular, charted := charted },
    funext fun _ => carried.treeOf size exclusive regular.distinct⟩
  rw [files i] at had
  cases had

theorem Tended.run {t0 : Server} {ops : List ServeOp} (tended : Tended t0) (run : Run serveStep TreeGuard t0 ops t) :
    Tended t ∧ ∃ pairs : List (ServeOp × Change (List Byte) FileNode), pairs.map Prod.fst = ops ∧
      Run (fun s pair => serveStep s pair.1) (fun s pair => Answers s pair.1 pair.2) t0 pairs t ∧
      Run FileTree.step (FileTree.Allowed .dir) (treeOf t0.fs.content) (pairs.map Prod.snd) (treeOf t.fs.content) ∧
      ∀ names, (∀ pair ∈ pairs, ¬ FileTree.Touches pair.2 names) → treeOf t.fs.content names = treeOf t0.fs.content names := by
  have steps : ∀ s op u, Tended s → TreeGuard s op → serveStep s op = some u → Tended u ∧ ∃ change, Answers s op change ∧
      FileTree.Allowed .dir (treeOf s.fs.content) change ∧
      FileTree.step (treeOf s.fs.content) change = some (treeOf u.fs.content) := by
    intro s op u tended guard next
    have answered := serveStep_answered tended guard next
    obtain ⟨change, answers, allowed, tree⟩ := answered.change
    exact ⟨answered.tended tended next, change, answers, allowed, congrArg some tree.symm⟩
  obtain ⟨after, pairs, inputs, answered, shown⟩ := run.refine (fun t => treeOf t.fs.content) Tended Answers tended steps
  refine ⟨after, pairs, inputs, answered, shown, fun names others => ?_⟩
  refine FileTree.run_other shown fun change mem => ?_
  obtain ⟨pair, inside, rfl⟩ := List.mem_map.mp mem
  exact others pair inside

/-- The computable form of the guard of `FSREQ_OPEN` with `O_CREAT` and without `O_TRUNC`. -/
def madeCheck (path : List Byte) (omode : Word) (t : Server) : Bool :=
  match openAlloc t with
  | .ok _ u => match fileCreate path u.fs with
    | .ok _ _ => (serveStep t (.fsreqOpen path omode)).all fun u => u.fs.given.all fun g => g.old.isNone
    | _ => false
  | _ => false

theorem treeGuard_open (keep : omode &&& oTrunc = 0) (check : madeCheck path omode t = true) :
    TreeGuard t (.fsreqOpen path omode) where
  clean u next := by
    unfold madeCheck at check
    split at check
    · split at check
      · rw [next] at check
        exact cleanMeta_of_check check
      · cases check
    · cases check
  creates path' omode' i u same _ alloc refused := by
    cases same
    rw [madeCheck, alloc] at check
    obtain ⟨e, v, failed⟩ := notMade_iff.mp refused.notMade
    dsimp only at check
    rw [failed] at check
    cases check
  truncates _ _ _ _ _ _ same trunc _ _ := by
    cases same
    exact absurd keep trunc
  maps _ _ _ same := by cases same
  sets _ _ _ same := by cases same
  stores _ _ _ same := by cases same

theorem treeGuard_remove (check : (serveStep t (.fsreqRemove path)).all (fun u => u.fs.given.all fun g => g.old.isNone) = true) :
    TreeGuard t (.fsreqRemove path) where
  clean u next := by
    rw [next] at check
    exact cleanMeta_of_check check
  creates _ _ _ _ same := by cases same
  truncates _ _ _ _ _ _ same := by cases same
  maps _ _ _ same := by cases same
  sets _ _ _ same := by cases same
  stores _ _ _ same := by cases same

end Mos.Fs
