import TwinTrees.CommandError
import TwinTrees.Disk.Request

/-!
# Walking down a tree

`Disk.walkDown` lists what is at a path and below it, each directory before its contents. Symbolic
links are listed and not followed, except that a link at the path itself leads to the directory it
points to. The order in a directory is that of the disk and carries no meaning. A part of the tree
that cannot be read is listed as the error.
-/

namespace TwinTrees.Tree

/-- The entry of a name in the directory at a path. -/
def inside (p : Path) (n : Name) : Path := p.join ⟨String.ofList n⟩

end TwinTrees.Tree

namespace TwinTrees

namespace Disk

/-- What is below the directory at a path. A path gets longer with every step down, so the limit on
the length of paths also bounds the depth. -/
def walkContents (d : Disk) : Nat → Path → List (Except WalkError (Path × Kind))
  | 0, p => [.error ⟨p, .os Errno.nameTooLong⟩]
  | depth + 1, p =>
    match d.list p with
    | .error fault => [.error ⟨p, fault⟩]
    | .ok names => names.flatMap fun (n, kind) =>
      .ok (Tree.inside p n, kind) ::
        (if kind = .directory then walkContents d depth (Tree.inside p n) else [])

/-- What is at a path and below it. -/
def walkDown (d : Disk) (root : Path) : List (Except WalkError (Path × Kind)) :=
  match d.lookAt root with
  | .error fault => [.error ⟨root, fault⟩]
  | .ok (_, e) =>
    match e.node.kind with
    | .file => [.ok (root, .file)]
    | .directory => .ok (root, .directory) :: d.walkContents pathLimit root
    | .symlink =>
      match d.find true root with
      | .error fault => [.error ⟨root, fault⟩]
      | .ok (_, e) => .ok (root, .symlink) ::
        (if e.node.kind = .directory then d.walkContents pathLimit root else [])

end Disk

end TwinTrees
