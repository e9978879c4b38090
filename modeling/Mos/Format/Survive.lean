import Mos.Format.Boot
import Mos.Fs.Refine

namespace Mos.Format

open Fs

variable {c : Image} {n i : Nat} {f : FilePtr} {args : Forest} {image : Image} {memory : Nat → Bool}

section Formatted

variable (made : Made c n) (top : IsNode c root (.dir args)) (well : args.WellNamed)
include made top well

theorem Made.regular : Regular c := by
  have tree := made.dirTree top well
  refine { made.sound.toExclusive with
    distinct := fun dir name f g reach plain _ => tree.distinct dir name f g reach plain.isName, top := top.1.type
    blocks := tree.blocks, trim := fun f i reach behind => ?_, free := fun f reach notRoot dead => ?_ }
  · by_cases live : f ≠ root → ¬ c.Dead f
    · obtain ⟨node, isNode, -⟩ := made.isNode top well reach live
      unfold Image.extent at behind
      by_contra held
      cases node with
      | file content =>
        have few : blocksFor content.length ≤ 1024 := by
          by_contra many
          exact (isNode.held 1024).mpr (Nat.lt_of_not_le many) (by simp [Image.target, nindirect, ndirect])
        have below := (isNode.held i).mp held
        have plain : c.field f 33 ≠ ftypeDir := by
          rw [isNode.type]
          decide
        rw [if_neg plain, roundBlocks_eq, isNode.size] at behind
        unfold blocksFor at below few
        omega
      | dir entries =>
        have below := (isNode.1.held i).mp held
        rw [if_pos isNode.1.type, isNode.1.size] at behind
        omega
    · obtain ⟨notRoot, dead⟩ := Classical.not_imp.mp live
      exact Image.target_blank (fun k _ small => made.clean f reach notRoot (not_not.mp dead) k small) (some i)
  · exact made.clean f reach notRoot dead 32 (by decide)

end Formatted

def Holds (d : Contents) (content : List Byte) : Prop :=
  d.size.toNat = content.length ∧ ∀ k, k < content.length →
    ∃ page, d.block (k / 4096) = some page ∧ byteAt (fun w => if h : w < 1024 then page ⟨w, h⟩ else 0) (k % 4096) = content.getD k 0

theorem IsFile.holds {content : List Byte} (isFile : IsFile c f content) : Holds (c.contents f) content := by
  refine ⟨isFile.size, fun k inside => ?_⟩
  have below : k / 4096 < blocksFor content.length := by
    unfold blocksFor
    omega
  have held := (isFile.held (k / 4096)).mpr below
  refine ⟨fun w => c (c.target f (some (k / 4096))) w, if_neg held, Eq.trans ?_ (isFile.bytes k inside (by unfold blocksFor; omega))⟩
  have small : k % 4096 / 4 < 1024 := by omega
  unfold byteAt
  dsimp only
  rw [dif_pos small]

/-- The node of the file server's tree is the file or the directory of the arguments. -/
def Stands : FileNode → Node → Prop
  | .file d, .file content => Holds d content
  | .dir, .dir _ => True
  | _, _ => False

theorem IsNode.stands {node : Node} (isNode : IsNode c f node) : Stands (c.node f) node := by
  cases node with
  | file content =>
    have plain : c.field f 33 ≠ ftypeDir := by
      rw [isNode.type]
      decide
    rw [node_file plain]
    exact isNode.holds
  | dir entries =>
    rw [node_dir isNode.1.type]
    trivial

theorem Formatted.tree (formatted : Formatted args image n) (well : args.WellNamed) (path : List Byte) :
    match (Node.dir args).lookup (pathElements path) with
    | some node => ∃ found, treeOf image (pathElements path) = some found ∧ Stands found node
    | none => treeOf image (pathElements path) = none := by
  have regular := formatted.made.regular formatted.top well
  have plain : ∀ name ∈ pathElements path, Plain name := fun name mem => plain_of_mem mem
  have top : IsNode image root (.dir args) := formatted.top
  cases looked : (Node.dir args).lookup (pathElements path) with
  | some node =>
    obtain ⟨d, x, resolves, isNode⟩ := top.lookup well looked none
    have leads := resolves.at .top plain
    rw [List.nil_append] at leads
    exact ⟨_, treeOf_at regular.distinct leads, isNode.stands⟩
  | none =>
    refine treeOf_none fun f leads => ?_
    obtain ⟨e, resolves⟩ := leads.resolves
    obtain ⟨node, found, -⟩ := top.resolves well plain resolves
    rw [looked] at found
    cases found

/-- What `fsformat` has put on the disk is found by `walk_path` after every run of the server in which no change is about
    the path. -/
theorem fsformat_survives (well : args.WellNamed) (made : fsformat args = some image) {t0 t : Server} {ops : List ServeOp}
    (booted : serverInit image memory = some t0) (charted : Charted t0.fs) (run : Run serveStep TreeGuard t0 ops t) :
    ∃ pairs : List (ServeOp × FileTree.Change (List Byte) FileNode), pairs.map Prod.fst = ops ∧
      Run (fun s pair => serveStep s pair.1) (fun s pair => Answers s pair.1 pair.2) t0 pairs t ∧
      ∀ path, (∀ pair ∈ pairs, ¬ FileTree.Touches pair.2 (pathElements path)) →
        ∃ r x, walkPathLoop path t.fs = .ok r x ∧ (r.code = -eNoMem ∧ r.file = none ∧ RunsOut t.fs.memory ∨
          match (Node.dir args).lookup (pathElements path) with
          | some node => r.code = 0 ∧ ∃ f, r.file = some f ∧ Stands (t.fs.content.node f) node
          | none => r.code ≠ 0 ∧ r.file = none) := by
  obtain ⟨n, formatted⟩ := Formatted.ofRun well.valid made
  have regular := formatted.made.regular formatted.top well
  have size : 2 < image.nblocks := by
    rw [formatted.made.size]
    decide
  obtain ⟨tended, start⟩ := Tended.boot regular size booted charted
  obtain ⟨after, pairs, inputs, answered, -, others⟩ := tended.run run
  refine ⟨pairs, inputs, answered, fun path untouched => ?_⟩
  have kept := others _ untouched
  rw [start] at kept
  have stored := formatted.tree well path
  obtain ⟨r, x, walked, ⟨code, none, out⟩ | found⟩ := after.lookup path
  · exact ⟨r, x, walked, .inl ⟨code, none, out⟩⟩
  refine ⟨r, x, walked, .inr ?_⟩
  rw [kept] at found
  cases looked : (Node.dir args).lookup (pathElements path) with
  | some node =>
    rw [looked] at stored
    obtain ⟨node', there, stands⟩ := stored
    rw [there] at found
    obtain ⟨code, f, file, same⟩ := found
    exact ⟨code, f, file, same ▸ stands⟩
  | none =>
    rw [looked] at stored
    dsimp only at stored
    rw [stored] at found
    exact found

/-- The file "bin/a" of two bytes and the file "b" of one. -/
def twoForest : Forest := .dir [0x62, 0x69, 0x6e] (.file [0x61] [7, 8] .nil) (.file [0x62] [9] .nil)

theorem twoForest_well : twoForest.WellNamed := by
  have bin : ValidName [0x62, 0x69, 0x6e] := ⟨⟨List.cons_ne_nil _ _, by decide⟩, by decide⟩
  have a : ValidName [0x61] := ⟨⟨List.cons_ne_nil _ _, by decide⟩, by decide⟩
  have b : ValidName [0x62] := ⟨⟨List.cons_ne_nil _ _, by decide⟩, by decide⟩
  exact ⟨bin, by decide, ⟨a, List.not_mem_nil, trivial⟩, b, List.not_mem_nil, trivial⟩

theorem treeGuard_sync {t : Server} (check : (serveStep t .fsreqSync).all (fun u => u.fs.given.all fun g => g.old.isNone) = true) :
    TreeGuard t .fsreqSync where
  clean u next := by
    rw [next] at check
    exact cleanMeta_of_check check
  creates _ _ _ _ same := by cases same
  truncates _ _ _ _ _ _ same := by cases same
  maps _ _ _ same := by cases same
  sets _ _ _ same := by cases same
  stores _ _ _ same := by cases same

/-- "c" is made, "b" is removed and the image is written back. -/
def otherRun : List ServeOp := [.fsreqOpen [0x63] oCreat, .fsreqRemove [0x62], .fsreqSync]

theorem otherRun_untouched {s : Server} {op : ServeOp} {change : FileTree.Change (List Byte) FileNode} (mem : op ∈ otherRun)
    (answers : Answers s op change) : ¬ FileTree.Touches change (pathElements [0x62, 0x69, 0x6e, 0x2f, 0x61]) := by
  have stays : ¬ FileTree.Touches (.stay : FileTree.Change (List Byte) FileNode) (pathElements [0x62, 0x69, 0x6e, 0x2f, 0x61]) := id
  simp only [otherRun, List.mem_cons, List.not_mem_nil, or_false] at mem
  rcases mem with rfl | rfl | rfl
  · rcases answers with rfl | ⟨-, rfl | ⟨-, rfl⟩⟩ | ⟨trunc, -⟩
    · exact stays
    · exact show ¬ pathElements _ = pathElements _ by decide
    · exact show ¬ pathElements _ = pathElements _ by decide
    · exact absurd trunc (by decide)
  · rcases answers with ⟨rfl, -⟩ | ⟨rfl, -⟩
    · exact show ¬ (pathElements _ <+: pathElements _ ∧ _) by decide
    · exact stays
  · obtain rfl : change = .stay := answers
    exact stays

def foundCheck (path : List Byte) (s : Store) : Bool :=
  match walkPathLoop path s with
  | .ok r _ => r.code == 0
  | _ => false

/-- "bin/a" still leads to the two bytes. -/
theorem fsformat_survives_bin : ∃ image t0 t, fsformat twoForest = some image ∧ serverInit image (fun _ => true) = some t0 ∧
    Run serveStep TreeGuard t0 otherRun t ∧ ∃ r x f, walkPathLoop [0x62, 0x69, 0x6e, 0x2f, 0x61] t.fs = .ok r x ∧
      r.file = some f ∧ Stands (t.fs.content.node f) (.file [7, 8]) := by
  have check : ((fsformat twoForest).any fun image => (serverInit image fun _ => true).any fun t0 =>
      madeCheck [0x63] oCreat t0 && (serveStep t0 (.fsreqOpen [0x63] oCreat)).any fun t1 =>
        (serveStep t1 (.fsreqRemove [0x62])).any fun t2 => (t2.fs.given.all fun g => g.old.isNone) &&
          (serveStep t2 .fsreqSync).any fun t => (t.fs.given.all fun g => g.old.isNone) &&
            foundCheck [0x62, 0x69, 0x6e, 0x2f, 0x61] t.fs) = true := by
    decide +kernel
  simp only [Option.any_eq_true, Bool.and_eq_true] at check
  obtain ⟨image, made, t0, booted, first, t1, opened, t2, removed, second, t, synced, third, leads⟩ := check
  obtain ⟨n, formatted⟩ := Formatted.ofRun twoForest_well.valid made
  obtain ⟨t0', booted', charted⟩ := formatted.made.boots fun _ => Eq.refl true
  cases booted.symm.trans booted'
  have guard₂ : TreeGuard t1 (.fsreqRemove [0x62]) := treeGuard_remove (by rw [removed]; exact second)
  have guard₃ : TreeGuard t2 .fsreqSync := treeGuard_sync (by rw [synced]; exact third)
  have run : Run serveStep TreeGuard t0 otherRun t :=
    ((Run.nil.snoc (treeGuard_open (by decide) first) opened).snoc guard₂ removed).snoc guard₃ synced
  obtain ⟨pairs, inputs, answered, found⟩ := fsformat_survives twoForest_well made booted charted run
  have untouched : ∀ pair ∈ pairs, ¬ FileTree.Touches pair.2 (pathElements [0x62, 0x69, 0x6e, 0x2f, 0x61]) := by
    intro pair mem
    obtain ⟨u, answers⟩ := answered.met pair mem
    exact otherRun_untouched (inputs ▸ List.mem_map_of_mem mem) answers
  obtain ⟨r, x, walked, ⟨code, -⟩ | result⟩ := found _ untouched
  · have zero : (r.code == 0) = true := by
      rw [foundCheck, walked] at leads
      exact leads
    rw [code] at zero
    exact absurd zero (by decide)
  · have looked : (Node.dir twoForest).lookup (pathElements [0x62, 0x69, 0x6e, 0x2f, 0x61]) = some (.file [7, 8]) := rfl
    rw [looked] at result
    obtain ⟨-, f, file, stands⟩ := result
    exact ⟨image, t0, _, made, booted, run, r, x, f, walked, file, stands⟩

end Mos.Format
