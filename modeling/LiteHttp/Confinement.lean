import LiteHttp.Dispatch
import LiteHttp.Lib.Path

/-!
# Which request paths stay under the document root

The path of a request is appended to the root as it came. What open(2) makes of
it stays under the root exactly when the request path, read on its own, goes no
level up, or comes back down by the names of the directories it went up.
-/

namespace LiteHttp

open Path

set_option autoImplicit false

/-- What a component does: empty and `.` stay, `..` goes up. -/
def pathMove (name : Bytes) : Move Bytes :=
  if name = [] ∨ name = [46] then .stay
  else if name = [46, 46] then .up
  else .into name

def moves (path : Bytes) : List (Move Bytes) := (path.splitOn slash).map pathMove

/-- The directories on the way to a path, `.` and `..` resolved by name. -/
def resolve (path : Bytes) : List Bytes := walk [] (moves path)

/-- `cwd/base_dir`. -/
def PathEnv.root (env : PathEnv) : List Bytes :=
  resolve (toCstr (toCstr (env.getcwd.getD []) ++ slash :: env.baseDir))

/-- What open(2) is given: `open_resource` copies the path, and the copy ends at its first NUL. -/
def openedPath (path : Bytes) : Bytes := toCstr path

def Confined (env : PathEnv) (path : Bytes) : Prop := env.root <+: resolve (openedPath path)

/-- No append of `get_absolue_path` fails. -/
def PathEnv.Whole (env : PathEnv) : Prop := ∀ n, n < 4 → env.alloc n = true

/-- A walk from the root goes up no level, or comes down again by the names it went up. -/
def Returns (root : List Bytes) (ms : List (Move Bytes)) : Prop :=
  root.drop (root.length - (relative ms).ups) <+: (relative ms).downs

/-- The working directory up to the slash in front of its last name. -/
def PathEnv.above (env : PathEnv) : Bytes := (toCstr (env.getcwd.getD [])).rdropWhile (· ≠ slash)

/-- That name: with the slash behind it lost, the next piece is glued to it. -/
def PathEnv.lastName (env : PathEnv) : Bytes := (toCstr (env.getcwd.getD [])).rtakeWhile (· ≠ slash)

/-- From the root back up to the directory that holds the working directory. -/
def PathEnv.back (env : PathEnv) : List (Move Bytes) :=
  Path.back (resolve env.above) (relative (moves (env.lastName ++ slash :: toCstr env.baseDir)))

/-- What the appends leave of the path behind that directory. -/
def PathEnv.left (env : PathEnv) (post : Bytes) : Bytes :=
  env.lastName ++ toCstr (env.kept 0 [slash] ++ env.kept 1 env.baseDir ++ env.kept 2 [slash] ++
    env.kept 3 post)

instance (env : PathEnv) : Decidable env.Whole := by unfold PathEnv.Whole; infer_instance

instance (root : List Bytes) (ms : List (Move Bytes)) : Decidable (Returns root ms) := by
  unfold Returns; infer_instance

theorem moves_append (a b : Bytes) : moves (a ++ slash :: b) = moves a ++ moves b := by
  rw [moves, List.splitOn_append_cons_self, List.map_append, moves, moves]

/-- A path that was built in full resolves below the root as its request part does
on its own; a NUL in the root's name cuts the request part off. -/
theorem prefix_resolve_iff (cwd base post : Bytes) (hcwd : 0 ∉ cwd) :
    resolve (toCstr (cwd ++ slash :: base)) <+:
        resolve (toCstr (cwd ++ slash :: base ++ slash :: post)) ↔
      0 ∈ base ∨ Returns (resolve (toCstr (cwd ++ slash :: base))) (moves (toCstr post)) := by
  have hslash : (0 : Byte) ≠ slash := by decide
  by_cases hbase : 0 ∈ base
  · have hmem : 0 ∈ cwd ++ slash :: base := by simp [hbase]
    rw [toCstr_append_of_mem hmem]
    exact iff_of_true (List.prefix_refl _) (Or.inl hbase)
  · have hfree : 0 ∉ cwd ++ slash :: base := by simp [hcwd, hbase, hslash]
    have hcut : toCstr (slash :: post) = slash :: toCstr post := by
      rw [toCstr, List.takeWhile_cons_of_pos (by decide), toCstr]
    rw [toCstr_append_of_free hfree, toCstr_of_free hfree, hcut, or_iff_right hbase]
    rw [resolve, resolve, moves_append _ (toCstr post), walk_append, prefix_walk_iff, Returns]

/-- Behind a directory, what is glued to the last name in it does not change the way to it. -/
theorem resolve_rtakeWhile (cwd rest : Bytes) :
    resolve (cwd ++ rest) =
      walk (resolve (cwd.rdropWhile (· ≠ slash))) (moves (cwd.rtakeWhile (· ≠ slash) ++ rest)) := by
  have hcwd := List.rdropWhile_append_rtakeWhile (p := fun c => decide (c ≠ slash)) (l := cwd)
  conv_lhs => rw [← hcwd, List.append_assoc]
  rcases List.eq_nil_or_concat (cwd.rdropWhile (· ≠ slash)) with hnil | ⟨above, c, habove⟩
  · rw [hnil, List.nil_append]
    rfl
  · have hne : cwd.rdropWhile (· ≠ slash) ≠ [] := by
      rw [habove]
      simp
    have hc : c = slash := by
      have hlast := List.rdropWhile_last_not (fun c => decide (c ≠ slash)) cwd hne
      simp only [habove, List.concat_eq_append, List.getLast_append_singleton] at hlast
      simpa using hlast
    have hmoves : moves (above ++ [slash]) = moves above ++ moves [] := moves_append above []
    rw [habove, List.concat_eq_append, hc, List.append_assoc, List.singleton_append, resolve,
      moves_append, resolve, hmoves, walk_append, walk_append]
    rfl

/-- The path that is looked up and opened stays under the root exactly when, with
every piece of it in place, the request path comes back to where it went up from;
with a piece missing, when what is left does so behind the way back up to it. -/
theorem served_confined_iff {env : PathEnv} {request : HttpRequest} {path : Bytes}
    (h : getAbsoluePath env request.path = .ok (.success, path)) :
    Confined env path ↔
      if env.Whole then 0 ∈ env.baseDir ∨ Returns env.root (moves (toCstr request.path))
      else Returns env.root (env.back ++ moves (env.left request.path)) := by
  obtain ⟨buf, hcwd, hpath⟩ := getAbsoluePath_ok h
  unfold Confined openedPath
  split
  · rename_i hwhole
    simp only [PathEnv.kept, hwhole 0 (by decide), hwhole 1 (by decide), hwhole 2 (by decide),
      hwhole 3 (by decide), if_true] at hpath
    have hfull : path = toCstr buf ++ slash :: env.baseDir ++ slash :: request.path := by
      simpa using hpath
    rw [hfull, PathEnv.root, hcwd, Option.getD_some]
    exact prefix_resolve_iff _ _ _ (toCstr_free buf)
  · have hcut (s : Bytes) : toCstr (toCstr buf ++ s) = toCstr buf ++ toCstr s :=
      toCstr_append_of_free (toCstr_free buf) s
    have hslash : toCstr (slash :: env.baseDir) = slash :: toCstr env.baseDir := by
      rw [toCstr, List.takeWhile_cons_of_pos (by decide), toCstr]
    -- both are walks from the directory over the working directory
    have hroot : env.root =
        walk (resolve env.above) (moves (env.lastName ++ slash :: toCstr env.baseDir)) := by
      rw [PathEnv.root, hcwd, Option.getD_some, hcut, hslash, resolve_rtakeWhile, PathEnv.above,
        PathEnv.lastName, hcwd, Option.getD_some]
    have hleft : resolve (toCstr path) = walk (resolve env.above) (moves (env.left request.path)) := by
      rw [hpath, List.append_assoc, List.append_assoc, List.append_assoc, hcut, resolve_rtakeWhile,
        PathEnv.left, PathEnv.above, PathEnv.lastName, hcwd, Option.getD_some, List.append_assoc,
        List.append_assoc]
    rw [hleft, hroot, prefix_walk_walk_iff, prefix_walk_iff]
    rfl

/-- The configuration of the repository, run in `/srv`. -/
def srvEnv : PathEnv := ⟨some (ascii "/srv".toList), ascii "./res".toList, true, fun _ => true⟩

theorem indexPath_confined :
    ∃ path, getAbsoluePath srvEnv (ascii "/a/../index.html".toList) = .ok (.success, path) ∧
      Confined srvEnv path := by
  have h : ∃ path, getAbsoluePath srvEnv (ascii "/a/../index.html".toList) = .ok (.success, path) :=
    ⟨_, rfl⟩
  obtain ⟨path, h⟩ := h
  let request : HttpRequest := { HttpRequest.new with path := ascii "/a/../index.html".toList }
  have hrequest : getAbsoluePath srvEnv request.path = .ok (.success, path) := h
  refine ⟨path, h, (served_confined_iff hrequest).mpr ?_⟩
  decide +kernel

theorem passwdPath_escapes :
    ∃ path, getAbsoluePath srvEnv (ascii "/../../etc/passwd".toList) = .ok (.success, path) ∧
      ¬ Confined srvEnv path := by
  refine ⟨_, rfl, ?_⟩
  unfold Confined
  decide +kernel

end LiteHttp
