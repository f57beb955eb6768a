/-
**Paths of paths.**

* `components_append` — the components of `p/q` are those of `p` and those of `q`;
* `components_join` — components, put together with slashes, are found again;
* `lookup_composes` — `namei` of `p/q` leads where `namei` of `q` leads from where `namei` of `p` led.
-/

import Csc3150.Namespace.Lookup

namespace Csc3150.Namespace

open FileSystem Outcome Program

/-! ### Components -/

theorem takeWhile_string {p : List UInt8} (string : 0 ∉ p) (q : List UInt8) :
    (p ++ q).takeWhile (· ≠ 0) = p ++ q.takeWhile (· ≠ 0) := by
  refine List.takeWhile_append_of_pos fun c member => ?_
  have other : c ≠ 0 := fun zero => string (zero ▸ member)
  exact decide_eq_true other

theorem components_append {p : List UInt8} (string : 0 ∉ p) (q : List UInt8) :
    components (p ++ slash :: q) = components p ++ components q := by
  have own : p.takeWhile (· ≠ 0) = p := by
    have all := takeWhile_string string []
    rwa [List.append_nil, List.takeWhile_nil, List.append_nil] at all
  have rest : (slash :: q).takeWhile (· ≠ 0) = slash :: q.takeWhile (· ≠ 0) :=
    List.takeWhile_cons_of_pos (by decide)
  rw [components, takeWhile_string string, rest, List.splitOn_append_cons_self, List.filter_append,
    List.map_append, components, components, own]

/-- A path with the given components. -/
def join (cs : List (List UInt8)) : List UInt8 := cs.flatMap fun c => slash :: c

/-- What can be the name of an entry. -/
structure IsComponent (c : List UInt8) : Prop where
  some : c ≠ []
  short : c.length ≤ DIRSIZ
  element : ∀ b ∈ c, b ≠ slash ∧ b ≠ 0

/-- Paths are parsed back. -/
theorem components_join {cs : List (List UInt8)} (all : ∀ c ∈ cs, IsComponent c) :
    components (join cs) = cs := by
  induction cs with
  | nil => rfl
  | cons c cs ih =>
    have is := all c List.mem_cons_self
    have stops : (join cs).headD 0 = slash ∨ (join cs).headD 0 = 0 := by
      cases cs with
      | nil => exact Or.inr rfl
      | cons d ds => exact Or.inl rfl
    rw [join, List.flatMap_cons, List.cons_append, components_slash]
    rw [show cs.flatMap (fun c => slash :: c) = join cs from rfl,
      components_element is.some is.element stops, List.take_of_length_le is.short,
      ih fun d member => all d (.tail _ member)]

/-- A segment between slashes is a part of the string. -/
theorem segment_of_splitOn (xs : List UInt8) {s : List UInt8} (member : s ∈ xs.splitOn slash) :
    slash ∉ s ∧ s ⊆ xs := by
  by_cases more : slash ∈ xs
  · obtain ⟨front, rest, isSplit, noSlash⟩ := List.eq_append_cons_of_mem more
    rw [isSplit, List.splitOn_append_cons_self_of_not_mem noSlash] at member
    rw [isSplit]
    rcases List.mem_cons.mp member with rfl | later
    · exact ⟨noSlash, List.subset_append_left _ _⟩
    · obtain ⟨apart, part⟩ := segment_of_splitOn rest later
      exact ⟨apart, fun b inS => List.mem_append_right _ (List.mem_cons_of_mem _ (part inS))⟩
  · rw [List.splitOn_eq_singleton more] at member
    obtain rfl := List.mem_singleton.mp member
    exact ⟨more, List.Subset.refl _⟩
termination_by xs.length
decreasing_by
  rw [isSplit, List.length_append, List.length_cons]
  omega

theorem isComponent_of_mem {path c : List UInt8} (member : c ∈ components path) : IsComponent c := by
  obtain ⟨s, segment, rfl⟩ := List.mem_map.mp member
  obtain ⟨among, nonempty⟩ := List.mem_filter.mp segment
  obtain ⟨noSlash, part⟩ := segment_of_splitOn _ among
  have isSome : s ≠ [] := of_decide_eq_true nonempty
  refine ⟨fun empty => ?_, List.length_take_le _ _, fun b inTake => ?_⟩
  · rcases List.take_eq_nil_iff.mp empty with zero | nil
    · cases zero
    · exact isSome nil
  · have inS := List.mem_of_mem_take inTake
    refine ⟨fun same => noSlash (same ▸ inS), ?_⟩
    exact of_decide_eq_true (List.all_eq_true.mp List.all_takeWhile b (part inS))

/-! ### Lookups -/

section Lookup

variable {sb : Superblock} {uses : Ip → Int} {name : Ip → Nat} {node : Nat → Option Node} {fs : Fs}
  {cwd : Ip} {p q : List UInt8} {nm nm' : Name}

/-- What a path leads to is allocated. -/
theorem WellFormed.resolved (formed : WellFormed sb uses name node fs) {cs : List (List UInt8)}
    {n m : Nat} (start : node n ≠ none) (leads : cs.foldlM (child node) n = some m) :
    node m ≠ none := by
  induction cs generalizing n with
  | nil =>
    cases leads
    exact start
  | cons c rest ih =>
    obtain ⟨k, isChild, leads⟩ := Option.bind_eq_some_iff.mp leads
    refine ih (formed.entered k ?_) leads
    obtain ⟨x, isNode, found⟩ := Option.bind_eq_some_iff.mp isChild
    by_cases isDir : x.type = T_DIR
    · rw [if_pos isDir] at found
      obtain ⟨⟨k', slot⟩, isFound, rfl⟩ := Option.map_eq_some_iff.mp found
      exact ⟨n, x, slot, c, isNode, isDir, (lookup_eq_some.mp isFound).1⟩
    · rw [if_neg isDir] at found
      cases found

theorem WellFormed.origin (formed : WellFormed sb uses name node fs) (used : 0 < uses cwd)
    (path : List UInt8) : node (At.origin name cwd path) ≠ none := by
  rw [At.origin]
  split
  · exact formed.root
  · exact formed.idle.used used

/-- The file system after a lookup, with the inode in the caller's hand as one more reference. -/
theorem WellFormed.hold (formed : WellFormed sb uses name node fs) {name' : Ip → Nat} {fs' : Fs} {i : Ip}
    (isNode : node (name' i) ≠ none)
    (after : At sb uses ⟨[i], [], []⟩ name' node fs') :
    WellFormed sb (Function.update uses i (uses i + 1)) name' node fs' := by
  have more : ∀ j, uses j ≤ Function.update uses i (uses i + 1) j := by
    intro j
    by_cases own : j = i
    · subst own
      rw [Function.update_self]
      omega
    · rw [Function.update_of_ne own]
  refine ⟨⟨after.sound, after.nodes, after.ok, fun j => (after.nonneg j).trans (more j), fun j => ?_,
    after.locked, after.named, fun {j} used => ?_, fun {n x} isNode zero => ?_, nofun, after.seen⟩,
    formed.inside, formed.root, formed.entered⟩
  · rw [after.refs]
    by_cases own : j = i
    · subst own
      simp
    · simp [own, Ne.symm own]
  · by_cases own : j = i
    · exact own ▸ isNode
    · rw [Function.update_of_ne own] at used
      exact after.used used
  · rcases after.kept isNode zero with loose | ⟨j, used, isN⟩
    · cases loose
    · exact Or.inr ⟨j, used.trans_le (more j), isN⟩

/-- `namei` leads to an allocated inode, and the file system is well formed with one more reference to
it. -/
theorem namei_holds (formed : WellFormed sb uses name node fs) (used : 0 < uses cwd) :
    Meets (namei sb cwd p nm).run fs (TableFull fs) fun r fs' => ∃ name',
      (components p).foldlM (child node) (At.origin name cwd p) = r.map name' ∧
      ∀ i, r = some i → WellFormed sb (Function.update uses i (uses i + 1)) name' node fs' := by
  have here := formed.idle
  have walk : Meets (namex sb cwd p false nm).run fs (TableFull fs) fun r fs' => ∃ name',
      (components p).foldlM (child node) (At.origin name cwd p) = r.1.map name' ∧
      At sb uses ⟨r.1.toList, [], []⟩ name' node fs' := by
    refine (here.namex formed.full (fun n known absent => ?_) formed.inside used).mono
      fun r fs' walked => ?_
    · rcases known with rfl | known
      · exact absurd absent formed.root
      · exact absurd absent (formed.entered n known)
    · obtain ⟨name', -, reached, -, after⟩ := walked
      rw [List.append_nil] at after
      refine ⟨name', ?_, after⟩
      rw [← resolve_eq_foldlM]
      exact reached
  refine .seq walk fun r fs' walked => .done ?_
  obtain ⟨name', leads, after⟩ := walked
  refine ⟨name', leads, fun i isFound => ?_⟩
  rw [isFound] at leads after
  exact formed.hold (formed.resolved (formed.origin used p) leads) after

/-- **Lookups compose.** Where `namei` of `p` led, `namei` of a relative `q` leads on to where `namei` of
`p/q` leads at once; and where `namei` of `p` led nowhere, `namei` of `p/q` does not either. -/
theorem lookup_composes (formed : WellFormed sb uses name node fs) (used : 0 < uses cwd)
    (string : 0 ∉ p) (isSome : p ≠ []) (relative : q.headD 0 ≠ slash) {r : Option Ip} {fs₁ : Fs}
    (first : (namei sb cwd p nm).run fs = .ok (r, fs₁)) :
    Meets (namei sb cwd (p ++ slash :: q) nm').run fs (TableFull fs) fun r₂ fs₂ =>
      r.elim (r₂ = none) fun i => Meets (namei sb i q nm).run fs₁ (TableFull fs₁) fun r₃ fs₃ =>
        r₂.map (fun j => (fs₂.inode j).inum) = r₃.map fun j => (fs₃.inode j).inum := by
  have origin : At.origin name cwd (p ++ slash :: q) = At.origin name cwd p := by
    obtain ⟨b, rest, rfl⟩ := List.exists_cons_of_ne_nil isSome
    rfl
  obtain ⟨name', leads, holds⟩ := (namei_holds formed used).ends _ _ first
  refine (path_lookup_folds formed used).1.mono fun r₂ fs₂ walked => ?_
  have leads₂ := walked.1
  rw [components_append string, List.foldlM_append, origin, leads] at leads₂
  cases r with
  | none => exact Option.map_eq_none_iff.mp leads₂
  | some i =>
    have held := holds i rfl
    have usedI : 0 < Function.update uses i (uses i + 1) i := by
      rw [Function.update_self]
      exact Int.lt_add_one_of_le (formed.idle.nonneg i)
    refine (path_lookup_folds held usedI).1.mono fun r₃ fs₃ walked₃ => ?_
    rw [leads₂, walked₃.1, At.origin, if_neg relative]
    rfl

/-- A file system in which only the root is referenced has room in the table. -/
theorem rootKernel_looks_up (path : List UInt8) : ∃ r fs₁,
    (namei rootSuperblock firstIp path dot).run rootKernel.fs = .ok (r, fs₁) := by
  have meets : Meets (namei rootSuperblock firstIp path dot).run rootKernel.fs
      (TableFull rootKernel.fs) _ := (path_lookup_folds rootKernel_wellFormed (by decide)).1
  cases isRun : (namei rootSuperblock firstIp path dot).run rootKernel.fs with
  | ok result => exact ⟨result.1, result.2, rfl⟩
  | error halt =>
    obtain ⟨-, i, full⟩ := meets.halts halt isRun
    have free : ∀ j, j ≠ firstIp → (rootKernel.fs.inode j).ref = 0 := by decide +kernel
    have another : ∀ i : Ip, ∃ j, j ≠ i ∧ j ≠ firstIp := by decide +kernel
    obtain ⟨j, other, notFirst⟩ := another i
    exact absurd (free j notFirst) (full j other)

/-- `"/."` and `"."` on the small image. -/
theorem lookup_composes_small : ∃ r fs₁,
    (namei rootSuperblock firstIp [47, 46] dot).run rootKernel.fs = .ok (r, fs₁) ∧
    Meets (namei rootSuperblock firstIp [47, 46, 47, 46] dot).run rootKernel.fs (TableFull rootKernel.fs)
      fun r₂ fs₂ => r.elim (r₂ = none) fun i =>
        Meets (namei rootSuperblock i [46] dot).run fs₁ (TableFull fs₁) fun r₃ fs₃ =>
          r₂.map (fun j => (fs₂.inode j).inum) = r₃.map fun j => (fs₃.inode j).inum := by
  obtain ⟨r, fs₁, first⟩ := rootKernel_looks_up [47, 46]
  exact ⟨r, fs₁, first, lookup_composes rootKernel_wellFormed (by decide) (by decide) (by decide)
    (by decide) first⟩

/-- **Paths have a normal form.** The components of an absolute path, put together, are a path that leads
to the same inode. -/
theorem lookup_join (formed : WellFormed sb uses name node fs) (used : 0 < uses cwd)
    (absolute : p.headD 0 = slash) (isSome : components p ≠ []) {r : Option Ip} {fs₁ : Fs}
    (first : (namei sb cwd p nm).run fs = .ok (r, fs₁)) :
    Meets (namei sb cwd (join (components p)) nm').run fs (TableFull fs) fun r₂ fs₂ =>
      r₂.map (fun j => (fs₂.inode j).inum) = r.map fun j => (fs₁.inode j).inum := by
  obtain ⟨c, rest, isCons⟩ := List.exists_cons_of_ne_nil isSome
  have again : (join (components p)).headD 0 = slash := by rw [isCons]; rfl
  have origin : At.origin name cwd (join (components p)) = At.origin name cwd p := by
    rw [At.origin, At.origin, if_pos again, if_pos absolute]
  have leads := ((path_lookup_folds formed used).1.ends _ _ first).1
  refine (path_lookup_folds formed used).1.mono fun r₂ fs₂ walked => ?_
  rw [walked.1, leads, components_join fun c member => isComponent_of_mem member, origin]

/-- `"//."` on the small image. -/
theorem lookup_join_small : ∃ r fs₁,
    (namei rootSuperblock firstIp [47, 47, 46] dot).run rootKernel.fs = .ok (r, fs₁) ∧
    Meets (namei rootSuperblock firstIp (join (components [47, 47, 46])) dot).run rootKernel.fs
      (TableFull rootKernel.fs) fun r₂ fs₂ =>
        r₂.map (fun j => (fs₂.inode j).inum) = r.map fun j => (fs₁.inode j).inum := by
  obtain ⟨r, fs₁, first⟩ := rootKernel_looks_up [47, 47, 46]
  exact ⟨r, fs₁, first, lookup_join rootKernel_wellFormed (by decide) (by decide) (by decide +kernel)
    first⟩

end Lookup

end Csc3150.Namespace
