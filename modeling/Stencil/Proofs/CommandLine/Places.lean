import Stencil.CommandLine.FileTree
import Stencil.Proofs.Success

/-! Where files are written. The place of a path depends on the directories alone, so files that come and go leave it where
it is. Its last name is the last part of the path, so paths with different endings have different places. -/

namespace Stencil

namespace Path

variable {path tail : Bytes}

def fileName (path : Bytes) : Bytes := (parts path).getLast?.getD []

theorem parts_eq (path : Bytes) : (Ascii.slash ∉ path ∧ parts path = [path]) ∨
    ∃ above name, Ascii.slash ∉ name ∧ path = above ++ Ascii.slash :: name ∧ parts path = parts above ++ [name] := by
  by_cases hmem : Ascii.slash ∈ path
  · obtain ⟨name, above, hpath, hname⟩ := List.eq_append_cons_of_mem (List.mem_reverse.mpr hmem)
    have hpath : path = above.reverse ++ Ascii.slash :: name.reverse := by
      rw [← path.reverse_reverse, hpath]
      simp
    have hname : Ascii.slash ∉ name.reverse := by rwa [List.mem_reverse]
    refine .inr ⟨above.reverse, name.reverse, hname, hpath, ?_⟩
    rw [hpath, parts, parts, List.splitOn_append_cons_self, List.splitOn_eq_singleton hname]
  · exact .inl ⟨hmem, List.splitOn_eq_singleton hmem⟩

theorem fileName_append (htail : Ascii.slash ∉ tail) : fileName (path ++ tail) = fileName path ++ tail := by
  have hlone {name : Bytes} (hname : Ascii.slash ∉ name) : parts name = [name] := List.splitOn_eq_singleton hname
  rcases parts_eq path with ⟨hpath, hparts⟩ | ⟨above, name, hname, hpath, hparts⟩
  · have hboth : Ascii.slash ∉ path ++ tail := by simp [hpath, htail]
    rw [fileName, fileName, hparts, hlone hboth]
    rfl
  · have hboth : Ascii.slash ∉ name ++ tail := by simp [hname, htail]
    have hparts' : parts (path ++ tail) = parts above ++ [name ++ tail] := by
      rw [hpath, List.append_assoc, List.cons_append, parts, List.splitOn_append_cons_self, List.splitOn_eq_singleton hboth]
      rfl
    rw [fileName, fileName, hparts, hparts']
    simp

end Path

namespace FileTree

variable {t t' : FileTree} {spot dir : List Bytes} {path name content : Bytes}

theorem get?_of_ne_nil (hspot : spot ≠ []) : t.get? spot = (t.entries.find? (·.1 == spot)).map (·.2) :=
  if_neg (mt List.isEmpty_iff.mp hspot)

theorem get?_set (hspot : spot ≠ []) (e : Entry) (other : List Bytes) :
    (t.set spot e).get? other = if other = spot then some e else t.get? other := by
  by_cases hother : other = []
  · rw [hother, if_neg hspot.symm]
    rfl
  rw [get?_of_ne_nil hother, get?_of_ne_nil hother, set]
  by_cases hfound : (t.get? spot).isSome
  · have hmap {f : List Bytes × Entry → List Bytes × Entry} (hf : ∀ q, (f q).1 = q.1) :
        (t.entries.map f).find? (·.1 == other) = (t.entries.find? (·.1 == other)).map f := by
      rw [List.find?_map]
      congr 2
      funext q
      exact congrArg (· == other) (hf q)
    rw [if_pos hfound, hmap fun q => by dsimp only; split <;> rfl, Option.map_map]
    by_cases heq : other = spot
    · subst heq
      rw [get?_of_ne_nil hother, Option.isSome_map] at hfound
      obtain ⟨⟨p, old⟩, hp⟩ := Option.isSome_iff_exists.mp hfound
      have hkey := List.find?_some hp
      have hkey : p = other := eq_of_beq hkey
      rw [hp, if_pos rfl]
      simp [hkey]
    · rw [if_neg heq]
      cases hp : t.entries.find? (·.1 == other) with
      | none => rfl
      | some entry =>
        obtain ⟨p, old⟩ := entry
        have hkey := List.find?_some hp
        have hkey : p = other := eq_of_beq hkey
        have hne : p ≠ spot := fun h => heq (hkey.symm.trans h)
        simp [hne]
  · rw [if_neg hfound, List.find?_append]
    rw [get?_of_ne_nil hspot, Option.isSome_map] at hfound
    by_cases heq : other = spot
    · subst heq
      rw [Option.not_isSome_iff_eq_none.mp hfound, if_pos rfl]
      simp
    · rw [if_neg heq]
      have hlone : ([(spot, e)].find? fun entry => entry.1 == other) = none := by simp [Ne.symm heq]
      rw [hlone, Option.or_none]

def SameDirectories (t t' : FileTree) : Prop := ∀ spot, t'.get? spot = some .directory ↔ t.get? spot = some .directory

theorem follow_cons_start {part : Bytes} {rest : List Bytes} (h : t.follow spot (part :: rest) = .ok dir) :
    t.get? spot = some .directory := by
  rw [follow] at h
  refine Decidable.byContradiction fun hnot => ?_
  rw [if_pos (bne_iff_ne.mpr hnot)] at h
  cases h

theorem follow_start {parts : List Bytes} (h : t.follow spot parts = .ok dir) (hdir : t.get? dir = some .directory) :
    t.get? spot = some .directory := by
  cases parts with
  | nil =>
    cases h
    exact hdir
  | cons part rest => exact follow_cons_start h

theorem follow_cons (hspot : t.get? spot = some .directory) (part : Bytes) (rest : List Bytes) :
    t.follow spot (part :: rest) =
      if part.isEmpty || part == Path.dot then t.follow spot rest
      else if part == Path.dotDot then if spot.isEmpty then .error .missing else t.follow spot.dropLast rest
      else if (t.get? (spot ++ [part])).isSome then t.follow (spot ++ [part]) rest
      else .error .missing := by
  rw [follow, if_neg]
  simp [hspot]

namespace SameDirectories

theorem refl (t : FileTree) : SameDirectories t t := fun _ => .rfl

theorem symm (h : SameDirectories t t') : SameDirectories t' t := fun spot => (h spot).symm

theorem trans {t'' : FileTree} (h : SameDirectories t t') (h' : SameDirectories t' t'') : SameDirectories t t'' :=
  fun spot => (h' spot).trans (h spot)

/-- Files come and go, directories stay. -/
theorem set (hspot : spot ≠ []) (hnew : t.get? spot ≠ some .directory) (content : Bytes) :
    SameDirectories t (t.set spot (.file content)) := by
  intro other
  rw [get?_set hspot]
  split
  next h => simp [h, hnew]
  next => rfl

theorem follow (h : SameDirectories t t') {parts : List Bytes} (hfollow : t.follow spot parts = .ok dir)
    (hdir : t.get? dir = some .directory) : t'.follow spot parts = .ok dir := by
  induction parts generalizing spot with
  | nil => exact hfollow
  | cons part rest ih =>
    have hspot := follow_start hfollow hdir
    rw [follow_cons hspot] at hfollow
    rw [follow_cons ((h spot).mpr hspot)]
    by_cases hstay : part.isEmpty || part == Path.dot
    · rw [if_pos hstay] at hfollow ⊢
      exact ih hfollow
    · rw [if_neg hstay] at hfollow ⊢
      by_cases hup : part == Path.dotDot
      · rw [if_pos hup] at hfollow ⊢
        by_cases htop : spot.isEmpty
        · rw [if_pos htop] at hfollow
          cases hfollow
        · rw [if_neg htop] at hfollow ⊢
          exact ih hfollow
      · rw [if_neg hup] at hfollow ⊢
        by_cases hentry : (t.get? (spot ++ [part])).isSome
        · rw [if_pos hentry] at hfollow
          rw [if_pos (by rw [(h _).mpr (follow_start hfollow hdir)]; rfl)]
          exact ih hfollow
        · rw [if_neg hentry] at hfollow
          cases hfollow

end SameDirectories

def reserved : List Bytes := [[], Path.dot, Path.dotDot]

theorem target_eq_ok : t.target path = .ok spot ↔ (path.isEmpty || Path.isRooted path) = false ∧ ∃ dir,
    t.follow [] (Path.parts path).dropLast = .ok dir ∧ t.get? dir = some .directory ∧ Path.fileName path ∉ reserved ∧
    spot = dir ++ [Path.fileName path] ∧ t.get? spot ≠ some .directory := by
  have hreserved : Path.fileName path ∈ reserved ↔ ((Path.fileName path).isEmpty || Path.fileName path == Path.dot ||
      Path.fileName path == Path.dotDot) = true := by
    simp [reserved, or_assoc]
  constructor
  · intro h
    rw [target] at h
    split at h
    next => cases h
    next hpath =>
      obtain ⟨dir, hfollow, h⟩ := bind_eq_ok h
      dsimp only at h
      split at h
      · cases h
      next hdir =>
        split at h
        · cases h
        next hname =>
          split at h
          · cases h
          next hnew =>
            cases h
            refine ⟨eq_false_of_ne_true hpath, dir, hfollow, by simpa using hdir, mt hreserved.mp hname, rfl, ?_⟩
            simpa using hnew
  · rintro ⟨hpath, dir, hfollow, hdir, hname, rfl, hnew⟩
    have hdir' : ¬ (t.get? dir != some .directory) = true := by simp [hdir]
    have hnew' : ¬ (t.get? (dir ++ [Path.fileName path]) == some .directory) = true := by simpa using hnew
    rw [target, if_neg (ne_true_of_eq_false hpath)]
    dsimp only
    rw [hfollow]
    exact (if_neg hdir').trans ((if_neg (mt hreserved.mpr hname)).trans (if_neg hnew'))

theorem SameDirectories.target (h : SameDirectories t t') (htarget : t.target path = .ok spot) :
    t'.target path = .ok spot := by
  obtain ⟨hpath, dir, hfollow, hdir, hname, hspot, hnew⟩ := target_eq_ok.mp htarget
  exact target_eq_ok.mpr ⟨hpath, dir, h.follow hfollow hdir, (h dir).mpr hdir, hname, hspot, mt (h spot).mp hnew⟩

theorem target_ne_nil (h : t.target path = .ok spot) : spot ≠ [] := by
  obtain ⟨-, _, -, -, -, rfl, -⟩ := target_eq_ok.mp h
  exact List.append_ne_nil_of_right_ne_nil _ (List.cons_ne_nil _ _)

theorem target_new (h : t.target path = .ok spot) : t.get? spot ≠ some .directory := by
  obtain ⟨-, _, -, -, -, -, hnew⟩ := target_eq_ok.mp h
  exact hnew

/-- Paths to the same place end in the same name. -/
theorem fileName_of_target {path' : Bytes} (h : t.target path = .ok spot) (h' : t.target path' = .ok spot) :
    Path.fileName path = Path.fileName path' := by
  obtain ⟨-, _, -, -, -, rfl, -⟩ := target_eq_ok.mp h
  obtain ⟨-, _, -, -, -, hspot, -⟩ := target_eq_ok.mp h'
  exact List.singleton_inj.mp (List.append_inj' hspot rfl).2

theorem write_eq_ok (h : t.write path content = .ok t') :
    ∃ spot, t.target path = .ok spot ∧ t' = t.set spot (.file content) := by
  obtain ⟨spot, hspot, h⟩ := bind_eq_ok h
  exact ⟨spot, hspot, (Except.ok.inj h).symm⟩

theorem append_eq_ok (h : t.append path content = .ok t') :
    ∃ spot all, t.target path = .ok spot ∧ t' = t.set spot (.file all) := by
  obtain ⟨spot, hspot, h⟩ := bind_eq_ok h
  split at h
  · exact ⟨spot, _, hspot, (Except.ok.inj h).symm⟩
  · exact ⟨spot, _, hspot, (Except.ok.inj h).symm⟩

theorem follow_append (parts more : List Bytes) :
    t.follow spot (parts ++ more) = t.follow spot parts >>= fun s => t.follow s more := by
  induction parts generalizing spot with
  | nil => rfl
  | cons part rest ih =>
    by_cases hspot : t.get? spot = some .directory
    · rw [List.cons_append, follow_cons hspot, follow_cons hspot]
      by_cases hstay : part.isEmpty || part == Path.dot
      · rw [if_pos hstay, if_pos hstay, ih]
      · rw [if_neg hstay, if_neg hstay]
        by_cases hup : part == Path.dotDot
        · rw [if_pos hup, if_pos hup]
          by_cases htop : spot.isEmpty
          · rw [if_pos htop, if_pos htop]
            rfl
          · rw [if_neg htop, if_neg htop, ih]
        · rw [if_neg hup, if_neg hup]
          by_cases hentry : (t.get? (spot ++ [part])).isSome
          · rw [if_pos hentry, if_pos hentry, ih]
          · rw [if_neg hentry, if_neg hentry]
            rfl
    · rw [List.cons_append, follow, follow, if_pos (bne_iff_ne.mpr hspot), if_pos (bne_iff_ne.mpr hspot)]
      rfl

theorem follow_name (hdir : t.get? dir = some .directory) (hname : name ∉ reserved) :
    t.follow dir [name] = if (t.get? (dir ++ [name])).isSome then .ok (dir ++ [name]) else .error .missing := by
  have hstay : ¬ (name.isEmpty || name == Path.dot) = true := fun h => hname (by
    rcases Bool.or_eq_true_iff.mp h with h | h
    · exact List.mem_cons.mpr (.inl (List.isEmpty_iff.mp h))
    · simp [reserved, eq_of_beq h])
  have hup : ¬ (name == Path.dotDot) = true := fun h => hname (by simp [reserved, eq_of_beq h])
  rw [follow_cons hdir, if_neg hstay, if_neg hup]
  rfl

theorem read_eq_ok (hname : Path.fileName path ∉ reserved) :
    t.read path = .ok content ↔ ∃ spot, t.target path = .ok spot ∧ t.get? spot = some (.file content) := by
  have hparts : Path.parts path = (Path.parts path).dropLast ++ [Path.fileName path] := by
    have hne : Path.parts path ≠ [] := List.splitOn_ne_nil _ _
    rw [Path.fileName, List.getLast?_eq_some_getLast hne]
    exact (List.dropLast_concat_getLast hne).symm
  constructor
  · intro h
    obtain ⟨entry, hentry, h⟩ := bind_eq_ok h
    obtain ⟨spot, hlocate, hentry⟩ := bind_eq_ok hentry
    rw [locate] at hlocate
    by_cases hpath : (path.isEmpty || Path.isRooted path) = true
    · rw [if_pos hpath] at hlocate
      cases hlocate
    rw [if_neg hpath, hparts, follow_append] at hlocate
    obtain ⟨dir, hfollow, hlast⟩ := bind_eq_ok hlocate
    have hdir := follow_cons_start hlast
    rw [follow_name hdir hname] at hlast
    by_cases hsome : (t.get? (dir ++ [Path.fileName path])).isSome
    · rw [if_pos hsome] at hlast
      cases hlast
      cases hget : t.get? (dir ++ [Path.fileName path]) with
      | none =>
        rw [hget] at hsome
        cases hsome
      | some found =>
        rw [hget] at hentry
        cases hentry
        cases entry with
        | directory => cases h
        | file old =>
          cases h
          have hnew : t.get? (dir ++ [Path.fileName path]) ≠ some .directory := by simp [hget]
          exact ⟨_, target_eq_ok.mpr ⟨eq_false_of_ne_true hpath, dir, hfollow, hdir, hname, rfl, hnew⟩, hget⟩
    · rw [if_neg hsome] at hlast
      cases hlast
  · rintro ⟨spot, htarget, hspot⟩
    obtain ⟨hpath, dir, hfollow, hdir, -, rfl, -⟩ := target_eq_ok.mp htarget
    have hlocate : t.locate path = .ok (dir ++ [Path.fileName path]) := by
      rw [locate, if_neg (ne_true_of_eq_false hpath), hparts, follow_append, hfollow]
      exact (follow_name hdir hname).trans (if_pos (by rw [hspot]; rfl))
    have hlookup : t.lookup path = .ok (.file content) := by
      rw [lookup, hlocate]
      dsimp only [bind, Except.bind]
      rw [hspot]
      rfl
    rw [read, hlookup]
    rfl

end FileTree

theorem World.change_cases (f : FileTree → Except Obstacle FileTree) (w : World) :
    (∃ files, f w.files = .ok files ∧ World.change f w = (.ok (), { w with files })) ∨
      ∃ e, World.change f w = (.error e, w) := by
  have hget : (get : StateM World World).run w = (w, w) := rfl
  cases h : f w.files with
  | ok files =>
    refine .inl ⟨files, rfl, ?_⟩
    change (World.change f).run w = _
    rw [change, StateT.run_bind, hget]
    dsimp only [bind, Id.run]
    rw [h]
    rfl
  | error e =>
    refine .inr ⟨e, ?_⟩
    change (World.change f).run w = _
    rw [change, StateT.run_bind, hget]
    dsimp only [bind, Id.run]
    rw [h]
    rfl

end Stencil
