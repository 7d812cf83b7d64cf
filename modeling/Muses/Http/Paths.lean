import Muses.Http.Handler

/-!
# `resolve_safe_path` — staying below the statics root

`resolve_safe_path` compares the components of the root with those of the target, as many as the
root has. That tells whether the target lies below the root, unless the target is a directory above
the root: then its components come to an end first, and the comparison goes on behind it.
-/

namespace Muses.HttpContext

open Muses.Core Text

/-! ## The comparison -/

/-- The target is a directory on the way to the root, and not the root. -/
def Above (target root : Path) : Prop := target <+: root ∧ target ≠ root

instance (target root : Path) : Decidable (Above target root) := inferInstanceAs (Decidable (_ ∧ _))

/-- **The comparison** leaves the target exactly if the target lies above the root, and otherwise
tells whether it lies below. -/
theorem mismatch_eq (root target : Path) :
    mismatch root target =
      if Above target root then none else some (decide (root <+: target)) := by
  induction root generalizing target with
  | nil => simp [mismatch, Above]
  | cons r root ih =>
    cases target with
    | nil => simp [mismatch, Above]
    | cons t target =>
      simp only [mismatch]
      split
      case isTrue heq =>
        subst heq
        have habove : Above (r :: target) (r :: root) ↔ Above target root := by
          simp [Above, List.cons_prefix_cons]
        simp only [ih, habove, List.cons_prefix_cons, true_and]
      case isFalse hne =>
        have habove : ¬ Above (t :: target) (r :: root) := fun h =>
          hne (List.cons_prefix_cons.mp h.1).1.symm
        simp [habove, List.cons_prefix_cons, hne]

/-! ## A file system without symbolic links -/

/-- One component of a path that is being resolved, from the directory `dir`. There is nothing above
the root directory. -/
def enter (dir : Path) (name : Bytes) : Path :=
  if name = [] ∨ name = ascii "." then dir
  else if name = ascii ".." then (if dir.length ≤ 1 then dir else dir.dropLast)
  else dir ++ [name]

def lexicallyNormal (dir : Path) (tail : Bytes) : Path :=
  (tail.splitOn 47).foldl enter (if tail.head? = some 47 then [ascii "/"] else dir)

def FileSystem.plain (root : Path) (files : List (Path × Bytes)) : FileSystem where
  canonicalStatics := some root
  weaklyCanonical dir tail := some (lexicallyNormal dir tail)
  present target := files.any fun f => target.isPrefixOf f.1
  openAtEnd path := (files.find? fun f => f.1.string = path).map fun f => (f.2.length, f.2)
  memoryFor size := size < 2 ^ 63 - 1

/-! ## The property -/

def relOf (url : Bytes) : Bytes := if url = ascii "/" then ascii "/index.html" else url

theorem resolveSafePath_eq {fs : FileSystem} {root : Path} (hroot : fs.canonicalStatics = some root)
    {url : Bytes} (hurl : url ≠ []) :
    resolveSafePath fs url =
      match fs.weaklyCanonical root ((relOf url).drop 1) with
      | none => .ok (.error .invalidPath)
      | some target =>
          match mismatch root target with
          | none => .error .undefined
          | some false => .ok (.error .traversalBlocked)
          | some true =>
              if fs.present target then .ok (.ok target.string) else .ok (.error .notFound) := by
  have hrel : relOf url ≠ [] := by
    unfold relOf
    split
    · decide
    · exact hurl
  simp only [resolveSafePath, hroot]
  exact if_neg hrel

/-- **Path resolution is confined and in bounds** exactly for targets that do not lie above the
root. For every nonempty URL, every root and every target that the file system resolves it to: the
comparison does not leave the target, and the target's path is returned just if the target lies
below the root and is there. -/
theorem path_confined {fs : FileSystem} {url : Bytes} {root target : Path}
    (hroot : fs.canonicalStatics = some root) (hurl : url ≠ [])
    (htarget : fs.weaklyCanonical root ((relOf url).drop 1) = some target) :
    (mismatch root target ≠ none ∧
      resolveSafePath fs url = .ok (
        if root <+: target then
          if fs.present target then .ok target.string else .error .notFound
        else .error .traversalBlocked)) ↔ ¬ Above target root := by
  have hcompare := mismatch_eq root target
  constructor
  · rintro ⟨hinside, -⟩ habove
    exact hinside (by rw [hcompare, if_pos habove])
  · intro habove
    rw [if_neg habove] at hcompare
    refine ⟨by simp [hcompare], ?_⟩
    rw [resolveSafePath_eq hroot hurl, htarget]
    simp only [hcompare]
    by_cases hbelow : root <+: target
    · simp only [hbelow, decide_true, if_true]
      split <;> rfl
    · simp only [hbelow, decide_false, if_false]

def smallSite : FileSystem :=
  .plain [ascii "/", ascii "srv", ascii "statics"]
    [([ascii "/", ascii "srv", ascii "statics", ascii "a"], ascii "hi")]

/-- A way out of the root and back into it. -/
theorem path_confined_outAndBack :
    mismatch [ascii "/", ascii "srv", ascii "statics"]
        [ascii "/", ascii "srv", ascii "statics", ascii "a"] ≠ none ∧
      resolveSafePath smallSite (ascii "/..//./statics/a") = .ok (.ok (ascii "/srv/statics/a")) :=
  (path_confined rfl (by decide) (by decide +kernel)).mpr (by decide)

/-- `/..` stands for `/srv`. The comparison reads a third component, which that path does not
have. -/
theorem comparison_leaves_target :
    smallSite.weaklyCanonical [ascii "/", ascii "srv", ascii "statics"]
        ((relOf (ascii "/..")).drop 1) = some [ascii "/", ascii "srv"] ∧
      mismatch [ascii "/", ascii "srv", ascii "statics"] [ascii "/", ascii "srv"] = none ∧
      resolveSafePath smallSite (ascii "/..") = .error .undefined := by
  decide +kernel

end Muses.HttpContext
