import Xv6.Fs.Link
import Mathlib.Data.List.TakeWhile

namespace Xv6.Fs

open Lib

/-- The maximal parts of a path without a slash that are not empty. -/
def segments (path : List Byte) : List (List Byte) := (path.splitOn slash).filter (· ≠ [])

/-- The names a path consists of. -/
def names (path : List Byte) : List (List Byte) := (segments path).map (List.take DIRSIZ)

/-- What namecmp() and strncpy() read of a buffer of DIRSIZ bytes: up to a NUL, if it has one. -/
def nameOf (name : List Byte) : List Byte := (name.take DIRSIZ).takeWhile (· ≠ 0)

/-- skipelem() with the buffer it writes: a long element fills it and has no NUL. -/
def skipelemInto (path name : List Byte) : Option (List Byte × List Byte) :=
  let path := path.dropWhile (· == slash)
  if path.isEmpty then none
  else
    let s := path.takeWhile (· != slash)
    let len := s.length
    let name :=
      if len ≥ DIRSIZ then s.take DIRSIZ ++ name.drop DIRSIZ
      else s ++ (0 :: name.drop (len + 1))
    some ((path.dropWhile (· != slash)).dropWhile (· == slash), name)

/-- What namex() asks of the file system. -/
structure Tree (ι : Type) where
  isDir : ι → Bool
  find : ι → List Byte → Option ι

/-- A run of namex(): the names it has passed to dirlookup(), and what it returns, with the name
that the caller finds in the buffer. -/
structure Visit (ι : Type) where
  looked : List (List Byte)
  result : Option (ι × List Byte)

/-- Where namex() starts. -/
def startOf (path : List Byte) (root cwd : ι) : ι :=
  if path.head? = some slash then root else cwd

/-- The loop of namex(), or none without fuel. -/
def namexTree (T : Tree ι) (nameiparent : Bool) : Nat → List Byte → List Byte → ι →
    Option (Visit ι)
  | 0, _, _, _ => none
  | fuel + 1, path, name, ip =>
    match skipelemInto path name with
    | none => some ⟨[], if nameiparent then none else some (ip, nameOf name)⟩
    | some (path, name) =>
      if T.isDir ip then
        if nameiparent && path.isEmpty then some ⟨[], some (ip, nameOf name)⟩
        else
          match T.find ip (nameOf name) with
          | none => some ⟨[nameOf name], none⟩
          | some next =>
            (namexTree T nameiparent fuel path name next).map (fun v =>
              { v with looked := nameOf name :: v.looked })
      else some ⟨[], none⟩

/-- Where names lead from an inode. -/
def Tree.follow (T : Tree ι) : ι → List (List Byte) → Option ι
  | ip, [] => some ip
  | ip, name :: rest => if T.isDir ip then (T.find ip name).bind (T.follow · rest) else none

/-- One of the names is missing or leads to no directory. -/
def Tree.Broken (T : Tree ι) (ip : ι) (front : List (List Byte)) : Prop :=
  ∃ before name after d, front = before ++ name :: after ∧ T.follow ip before = some d ∧
    ∀ next, T.find d name = some next → T.isDir next = false

/-- What a run of namex() from the inode ip has to do with the names of its path. -/
structure Resolves (T : Tree ι) (ip : ι) (parent : Bool) (ns : List (List Byte)) (v : Visit ι) :
    Prop where
  looked : v.looked <+: if parent then ns.dropLast else ns
  all : v.result.isSome → v.looked = if parent then ns.dropLast else ns
  namei : parent = false → v.result.map Prod.fst = T.follow ip ns
  stops : parent = true → ∀ d name, v.result = some (d, name) ↔
    ∃ front, ns = front ++ [name] ∧ T.follow ip front = some d ∧ T.isDir d = true

theorem segments_nil : segments [] = [] := by decide

theorem segment_ne_nil (h : s ∈ segments path) : s ≠ [] := by
  simpa using (List.mem_filter.mp h).2

theorem segments_slash (l : List Byte) : segments (slash :: l) = segments l := by
  rw [segments, List.splitOn, List.splitOnP_cons_eq_if_modifyHead, if_pos (by simp), segments,
    List.splitOn]
  simp

theorem segments_word (h : ∀ c ∈ w, c ≠ slash) (hne : w ≠ []) : segments w = [w] := by
  have hsplit : w.splitOnP (· == slash) = [w] :=
    List.splitOnP_eq_singleton (fun c hc => by simpa using h c hc)
  rw [segments, List.splitOn, hsplit]
  simp [hne]

theorem segments_word_slash (h : ∀ c ∈ w, c ≠ slash) (hne : w ≠ []) (rest : List Byte) :
    segments (w ++ slash :: rest) = w :: segments rest := by
  have hsplit : (w ++ slash :: rest).splitOnP (· == slash) = w :: rest.splitOnP (· == slash) :=
    List.splitOnP_append_cons_of_forall_mem (fun c hc => by simpa using h c hc) slash (by simp) rest
  rw [segments, List.splitOn, hsplit, segments, List.splitOn]
  simp [hne]

theorem segments_dropWhile (path : List Byte) :
    segments (path.dropWhile (· == slash)) = segments path := by
  induction path with
  | nil => rfl
  | cons c path ih =>
    by_cases hc : c = slash
    · rw [hc, List.dropWhile_cons_of_pos (by simp), ih, segments_slash]
    · rw [List.dropWhile_cons_of_neg (by simpa using hc)]

theorem segments_cons (hne : path ≠ []) (h : path.head? ≠ some slash) :
    segments path =
      path.takeWhile (· != slash) :: segments (path.dropWhile (· != slash)) := by
  have hw : ∀ c ∈ path.takeWhile (· != slash), c ≠ slash := by
    intro c hc
    simpa using List.mem_takeWhile_imp hc
  have hwne : path.takeWhile (· != slash) ≠ [] := by
    cases path with
    | nil => exact absurd rfl hne
    | cons c path =>
      rw [List.takeWhile_cons_of_pos (by simpa using h)]
      exact List.cons_ne_nil _ _
  have hsplit := List.takeWhile_append_dropWhile (p := (· != slash)) (l := path)
  cases hd : path.dropWhile (· != slash) with
  | nil =>
    rw [hd, List.append_nil] at hsplit
    rw [segments_nil, ← segments_word hw hwne, hsplit]
  | cons c rest =>
    have hc : c = slash := by
      have := List.head?_dropWhile_not (fun x : Byte => x != slash) path
      rw [hd] at this
      simpa using this
    rw [hd, hc] at hsplit
    rw [hc, segments_slash, ← segments_word_slash hw hwne, hsplit]

theorem nameOf_short {s : List Byte} (h : (0 : Byte) ∉ s) (hlen : s.length < DIRSIZ)
    (rest : List Byte) : nameOf (s ++ 0 :: rest) = s := by
  obtain ⟨n, hn⟩ : ∃ n, DIRSIZ - s.length = n + 1 := ⟨DIRSIZ - s.length - 1, by omega⟩
  rw [nameOf, List.take_append, List.take_of_length_le (by omega), hn, List.take_succ_cons,
    List.takeWhile_append_of_pos]
  · simp
  · intro c hc
    simpa using fun he : c = 0 => h (he ▸ hc)

theorem nameOf_long {s : List Byte} (h : (0 : Byte) ∉ s) (hlen : DIRSIZ ≤ s.length)
    (rest : List Byte) : nameOf (s.take DIRSIZ ++ rest) = s.take DIRSIZ := by
  have htake : (s.take DIRSIZ).length = DIRSIZ := by
    rw [List.length_take]
    omega
  rw [nameOf, List.take_append_of_le_length (by omega), List.take_of_length_le (by omega),
    List.takeWhile_eq_self_iff]
  intro c hc
  simpa using fun he : c = 0 => h (he ▸ List.mem_of_mem_take hc)

/-- What skipelem() leaves in the buffer is the element, cut to DIRSIZ bytes. -/
theorem nameOf_stored {s : List Byte} (h : (0 : Byte) ∉ s) (name : List Byte) :
    nameOf (if s.length ≥ DIRSIZ then s.take DIRSIZ ++ name.drop DIRSIZ
      else s ++ (0 :: name.drop (s.length + 1))) = s.take DIRSIZ := by
  split
  · rename_i hlong
    exact nameOf_long h hlong _
  · rename_i hshort
    rw [nameOf_short h (by omega), List.take_of_length_le (by omega)]

theorem skipelemInto_none (h : skipelemInto path name = none) : segments path = [] := by
  rw [← segments_dropWhile]
  unfold skipelemInto at h
  dsimp only at h
  split at h
  · rename_i hempty
    rw [List.isEmpty_iff.mp hempty, segments_nil]
  · cases h

theorem segments_eq_nil (h : path.head? ≠ some slash) : path = [] ↔ segments path = [] := by
  constructor
  · rintro rfl
    exact segments_nil
  · intro he
    by_contra hne
    rw [segments_cons hne h] at he
    cases he

theorem head_dropWhile (path : List Byte) :
    (path.dropWhile (· == slash)).head? ≠ some slash := by
  intro he
  have hnot := List.head?_dropWhile_not (fun x : Byte => x == slash) path
  rw [he] at hnot
  simp at hnot

/-- One call of skipelem() takes the first segment off the path. -/
structure Skips (path name rest : List Byte) : Prop where
  first : ∃ s, segments path = s :: segments rest ∧ nameOf name = s.take DIRSIZ
  shorter : rest.length < path.length
  nul : (0 : Byte) ∉ rest
  last : rest = [] ↔ segments rest = []

theorem skipelemInto_skips {rest : List Byte} (h0 : (0 : Byte) ∉ path)
    (h : skipelemInto path buf = some (rest, name)) : Skips path name rest := by
  unfold skipelemInto at h
  dsimp only at h
  split at h
  · cases h
  rename_i hne
  rw [List.isEmpty_iff] at hne
  have hsub : (path.dropWhile (· == slash)).Sublist path := List.dropWhile_sublist _
  have hfirst := segments_cons hne (head_dropWhile path)
  rw [segments_dropWhile] at hfirst
  rw [Option.some.injEq, Prod.mk.injEq] at h
  generalize path.dropWhile (· == slash) = p at *
  have hsplit := List.takeWhile_append_dropWhile (p := (· != slash)) (l := p)
  generalize p.takeWhile (· != slash) = w at *
  generalize p.dropWhile (· != slash) = d at *
  obtain ⟨rfl, rfl⟩ := h
  have hrest : (d.dropWhile (· == slash)).Sublist d := List.dropWhile_sublist _
  have hpath : (w ++ d).Sublist path := hsplit ▸ hsub
  have hw : (0 : Byte) ∉ w := fun hm => h0 (hpath.mem (List.mem_append_left d hm))
  have hpos : w ≠ [] := segment_ne_nil (hfirst ▸ List.mem_cons_self)
  refine ⟨⟨w, ?_, ?_⟩, ?_, ?_, segments_eq_nil (head_dropWhile _)⟩
  · rw [segments_dropWhile]
    exact hfirst
  · exact nameOf_stored hw buf
  · have h1 := hrest.length_le
    have h2 := hpath.length_le
    have h3 := List.length_pos_iff.mpr hpos
    rw [List.length_append] at h2
    omega
  · exact fun hm => h0 (hpath.mem (List.mem_append_right w (hrest.mem hm)))

theorem follow_cons {T : Tree ι} (hd : T.isDir ip = true) (hf : T.find ip name = some next)
    (rest : List (List Byte)) : T.follow ip (name :: rest) = T.follow next rest := by
  rw [Tree.follow, if_pos hd, hf, Option.bind_some]

theorem Resolves.cons {rest : List (List Byte)} (h : Resolves T next parent rest v)
    (hd : T.isDir ip = true) (hf : T.find ip name = some next)
    (hgo : ¬ (parent = true ∧ rest = [])) :
    Resolves T ip parent (name :: rest) { v with looked := name :: v.looked } := by
  have hlast : (if parent then (name :: rest).dropLast else name :: rest) =
      name :: if parent then rest.dropLast else rest := by
    cases parent with
    | false => rfl
    | true =>
      cases rest with
      | nil => exact absurd ⟨rfl, rfl⟩ hgo
      | cons a rest => rfl
  refine ⟨?_, fun hs => ?_, fun hp => ?_, fun hp d last => ?_⟩
  · rw [hlast]
    exact (List.prefix_cons_inj name).mpr h.looked
  · rw [hlast, h.all hs]
  · rw [follow_cons hd hf]
    exact h.namei hp
  · rw [h.stops hp d last]
    constructor
    · rintro ⟨front, hns, hw, hdir⟩
      exact ⟨name :: front, by rw [hns]; rfl, by rw [follow_cons hd hf, hw], hdir⟩
    · rintro ⟨front, hns, hw, hdir⟩
      cases front with
      | nil =>
        cases hns
        exact absurd ⟨hp, rfl⟩ hgo
      | cons a front =>
        rw [List.cons_append, List.cons.injEq] at hns
        obtain ⟨rfl, hns⟩ := hns
        rw [follow_cons hd hf] at hw
        exact ⟨front, hns, hw, hdir⟩

theorem resolves_stuck {T : Tree ι} {rest : List (List Byte)}
    (hl : looked <+: if parent then (name :: rest).dropLast else name :: rest)
    (h : ∀ ns, T.follow ip (name :: ns) = none)
    (hd : parent = true → rest = [] → T.isDir ip = false) :
    Resolves T ip parent (name :: rest) ⟨looked, none⟩ := by
  refine ⟨hl, fun hs => (nomatch hs), fun _ => (h rest).symm, fun hp d last => ?_⟩
  refine ⟨fun he => (nomatch he), ?_⟩
  rintro ⟨front, hns, hw, hdir⟩
  cases front with
  | nil =>
    cases hns
    cases hw
    rw [hd hp rfl] at hdir
    cases hdir
  | cons a front =>
    rw [List.cons_append, List.cons.injEq] at hns
    rw [← hns.1, h] at hw
    cases hw

/-- namex() goes through the names of its path. -/
theorem namexTree_resolves (T : Tree ι) (parent : Bool) (h0 : (0 : Byte) ∉ path)
    (hf : path.length < fuel) (buf : List Byte) (ip : ι) :
    ∃ v, namexTree T parent fuel path buf ip = some v ∧ Resolves T ip parent (names path) v := by
  induction fuel generalizing path buf ip with
  | zero => omega
  | succ fuel ih =>
    rw [namexTree]
    cases hs : skipelemInto path buf with
    | none =>
      have hnil : names path = [] := by rw [names, skipelemInto_none hs, List.map_nil]
      rw [hnil]
      refine ⟨_, rfl, ?_, fun _ => ?_, fun hp => ?_, fun hp d last => ?_⟩
      · cases parent <;> exact List.prefix_refl _
      · cases parent <;> rfl
      · subst hp
        rfl
      · subst hp
        refine ⟨fun he => (nomatch he), ?_⟩
        rintro ⟨front, hns, -⟩
        cases front <;> cases hns
    | some r =>
      obtain ⟨rest, name⟩ := r
      have hskip := skipelemInto_skips h0 hs
      have hshort := hskip.shorter
      obtain ⟨s, hseg, hname⟩ := hskip.first
      have hns : names path = nameOf name :: names rest := by
        rw [names, hseg, List.map_cons, hname, names]
      have hlast : rest = [] ↔ names rest = [] := by
        rw [hskip.last, names, List.map_eq_nil_iff]
      rw [hns]
      dsimp only
      by_cases hd : T.isDir ip = true
      · rw [if_pos hd]
        by_cases hstop : parent = true ∧ rest = []
        · obtain ⟨rfl, rfl⟩ := hstop
          have hone : names [] = [] := hlast.mp rfl
          rw [if_pos (show (true && ([] : List Byte).isEmpty) = true from rfl), hone]
          refine ⟨_, rfl, List.prefix_refl _, fun _ => rfl, fun hp => (nomatch hp),
            fun _ d last => ?_⟩
          constructor
          · intro he
            cases he
            exact ⟨[], rfl, rfl, hd⟩
          · rintro ⟨front, hfront, hw, -⟩
            cases front with
            | nil =>
              cases hfront
              cases hw
              rfl
            | cons a front =>
              rw [List.cons_append, List.cons.injEq] at hfront
              cases front <;> cases hfront.2
        · have hgo : ¬ (parent && rest.isEmpty) = true := by simpa using hstop
          rw [if_neg hgo]
          cases hfind : T.find ip (nameOf name) with
          | none =>
            refine ⟨_, rfl, resolves_stuck ?_ (fun ns => ?_) (fun hp hr => ?_)⟩
            · cases parent with
              | false => exact ⟨names rest, rfl⟩
              | true =>
                cases hrest : names rest with
                | nil => exact absurd ⟨rfl, hlast.mpr hrest⟩ hstop
                | cons b bs => exact ⟨(b :: bs).dropLast, rfl⟩
            · rw [Tree.follow, if_pos hd, hfind, Option.bind_none]
            · exact absurd ⟨hp, hlast.mpr hr⟩ hstop
          | some next =>
            obtain ⟨v, hv, hres⟩ := ih hskip.nul (by omega) name next
            refine ⟨_, by dsimp only; rw [hv, Option.map_some], hres.cons hd hfind ?_⟩
            rw [← hlast]
            exact hstop
      · rw [if_neg hd]
        refine ⟨_, rfl, resolves_stuck ⟨_, rfl⟩ (fun ns => ?_) (fun _ _ => ?_)⟩
        · rw [Tree.follow, if_neg hd]
        · simpa using hd

/-- A walk over directories and names that are there ends in a directory, and no other does. -/
theorem Tree.broken_iff {T : Tree ι} (hd : T.isDir ip = true) :
    T.Broken ip front ↔ ∀ d, T.follow ip front = some d → T.isDir d = false := by
  induction front generalizing ip with
  | nil =>
    constructor
    · rintro ⟨before, name, after, d, he, -⟩
      cases before <;> cases he
    · intro h
      rw [h ip rfl] at hd
      cases hd
  | cons name rest ih =>
    cases hf : T.find ip name with
    | none =>
      have hstuck : T.follow ip (name :: rest) = none := by
        rw [Tree.follow, if_pos hd, hf, Option.bind_none]
      rw [hstuck]
      refine ⟨fun _ d hw => (nomatch hw), fun _ => ⟨[], name, rest, ip, rfl, rfl, ?_⟩⟩
      intro next hn
      rw [hf] at hn
      cases hn
    | some next =>
      rw [follow_cons hd hf]
      by_cases hn : T.isDir next = true
      · rw [← ih hn]
        constructor
        · rintro ⟨before, nm, after, d, he, hw, hbad⟩
          cases before with
          | nil =>
            cases he
            cases hw
            rw [hbad next hf] at hn
            cases hn
          | cons a before =>
            rw [List.cons_append, List.cons.injEq] at he
            obtain ⟨rfl, he⟩ := he
            rw [follow_cons hd hf] at hw
            exact ⟨before, nm, after, d, he, hw, hbad⟩
        · rintro ⟨before, nm, after, d, he, hw, hbad⟩
          exact ⟨name :: before, nm, after, d, by rw [he]; rfl, by rw [follow_cons hd hf, hw], hbad⟩
      · have hfile : T.isDir next = false := by simpa using hn
        constructor
        · intro _ d hw
          cases rest with
          | nil =>
            cases hw
            exact hfile
          | cons a rest =>
            rw [Tree.follow, if_neg hn] at hw
            cases hw
        · intro _
          refine ⟨[], name, rest, ip, rfl, rfl, fun next' hn' => ?_⟩
          rw [hf] at hn'
          cases hn'
          exact hfile

/-- nameiparent() from a directory fails without a segment, or when one before the last is
missing or no directory. -/
theorem Resolves.fails (h : Resolves T ip true ns v) (hd : T.isDir ip = true) :
    v.result = none ↔ ns = [] ∨ T.Broken ip ns.dropLast := by
  rw [T.broken_iff hd]
  constructor
  · intro hnone
    rcases List.eq_nil_or_concat ns with rfl | ⟨front, last, rfl⟩
    · exact .inl rfl
    · right
      intro d hw
      rw [List.concat_eq_append, List.dropLast_concat] at hw
      by_contra hdir
      have := (h.stops rfl d last).mpr ⟨front, List.concat_eq_append, hw, by simpa using hdir⟩
      rw [hnone] at this
      cases this
  · intro hbad
    cases hr : v.result with
    | none => rfl
    | some q =>
      obtain ⟨d, last⟩ := q
      obtain ⟨front, rfl, hw, hdir⟩ := (h.stops rfl d last).mp hr
      rcases hbad with he | hall
      · cases front <;> cases he
      · rw [List.dropLast_concat] at hall
        rw [hall d hw] at hdir
        cases hdir

theorem skipelem_eq (h0 : (0 : Byte) ∉ path) (buf : List Byte) :
    skipelem path = (skipelemInto path buf).map (fun q => (nameOf q.2, q.1)) := by
  unfold skipelem skipelemInto
  dsimp only
  split
  · rfl
  · have hw : (0 : Byte) ∉ (path.dropWhile (· == slash)).takeWhile (· != slash) := fun hm =>
      h0 ((List.dropWhile_sublist _).mem ((List.takeWhile_sublist _).mem hm))
    rw [Option.map_some, nameOf_stored hw buf]

/-- The elements that the system calls work with are the names of the path. -/
theorem elements_eq_names (h0 : (0 : Byte) ∉ path) (hf : path.length ≤ fuel) :
    elements fuel path = names path := by
  induction fuel generalizing path with
  | zero =>
    rw [List.eq_nil_of_length_eq_zero (Nat.le_zero.mp hf)]
    decide
  | succ fuel ih =>
    rw [elements, skipelem_eq h0 []]
    cases hs : skipelemInto path [] with
    | none => rw [names, skipelemInto_none hs, Option.map_none, List.map_nil]
    | some r =>
      obtain ⟨rest, name⟩ := r
      have hskip := skipelemInto_skips h0 hs
      have hshort := hskip.shorter
      obtain ⟨s, hseg, hname⟩ := hskip.first
      rw [Option.map_some, names, hseg, List.map_cons, ← hname]
      dsimp only
      rw [ih hskip.nul (by omega), names]

/-- The directories and names of a file system. -/
def treeOf (V : View) : Tree Nat := ⟨fun i => (V i).type == T_DIR, fun i name => (V i).lookup name⟩

theorem treeOf_isDir {V : View} : (treeOf V).isDir i = true ↔ (V i).type = T_DIR := by
  simp [treeOf]

theorem walk_eq_follow (V : View) (i : Nat) (ns : List (List Byte)) :
    walk V i ns = (treeOf V).follow i ns := by
  induction ns generalizing i with
  | nil => rfl
  | cons name rest ih =>
    rw [walk, Tree.follow]
    simp only [treeOf_isDir]
    split
    · change _ = ((V i).lookup name).bind _
      cases (V i).lookup name with
      | none => rfl
      | some j => exact ih j
    · rfl

/-- namex() on the inode table gives what the walk over the tree gives. -/
theorem Named.visit (h : Named sb e L H V i parent ns r c)
    (hv : Resolves (treeOf V) i parent ns v) :
    r.map (fun q => (c.itable q.1).inum) = v.result.map Prod.fst ∧
      (parent = true → r.map Prod.snd = v.result.map Prod.snd) := by
  cases parent with
  | false =>
    rw [hv.namei rfl, ← walk_eq_follow]
    refine ⟨?_, fun hp => (nomatch hp)⟩
    cases r with
    | none => rw [(h.none rfl).2.1 rfl, Option.map_none]
    | some q =>
      obtain ⟨j, hok, hw, -⟩ := h.some q.1 q.2 rfl
      rw [hw rfl, Option.map_some, (hok.inside _ (Multiset.mem_cons_self _ _)).2]
  | true =>
    cases r with
    | none =>
      have hnone : v.result = Option.none := by
        rw [Option.eq_none_iff_forall_ne_some]
        rintro ⟨d, name⟩ hr
        obtain ⟨front, hns, hw, hdir⟩ := (hv.stops rfl d name).mp hr
        rw [← walk_eq_follow] at hw
        exact (h.none rfl).2.2 rfl front name d hns hw (treeOf_isDir.mp hdir)
      rw [hnone]
      exact ⟨rfl, fun _ => rfl⟩
    | some q =>
      obtain ⟨j, hok, -, hw⟩ := h.some q.1 q.2 rfl
      obtain ⟨front, hns, hw, hdir, -⟩ := hw rfl
      rw [walk_eq_follow] at hw
      rw [(hv.stops rfl j q.2).mpr ⟨front, hns, hw, treeOf_isDir.mpr hdir⟩]
      refine ⟨?_, fun _ => rfl⟩
      rw [Option.map_some, Option.map_some, (hok.inside _ (Multiset.mem_cons_self _ _)).2]

end Xv6.Fs
