import HeaderOrder.Proofs.NormalForm
import HeaderOrder.Proofs.SyncCall

/-!
# Paths as seen from the root

Reading a path first and joining it then comes to the same as joining it unread.
-/

namespace HeaderOrder

open Byte

namespace Path

variable {rooted : Bool} {stack read parts names top below : List Text} {part dir root t u : Text}

theorem head?_ne_backslash (h : isAbsolute t = true) : t.head? ≠ some backslash := by
  intro hhead
  rw [isAbsolute, hhead] at h
  cases h

/-! ## Joined paths -/

theorem foldl_enter_enter (h : NormalStack false read)
    (hpart : ∀ b ∈ part, isSeparator b = false) :
    (enter false read part).reverse.foldl (enter rooted) stack =
      enter rooted (read.reverse.foldl (enter rooted) stack) part := by
  obtain ⟨names, k, rfl, hnames, -⟩ := h
  rcases part_cases hpart with hskip | rfl | hname
  · rw [enter_skip hskip, enter_skip hskip]
  -- A double dot takes back the last name of the way, and becomes part of a way without names.
  · cases names with
    | nil =>
      rw [List.nil_append, enter_above_replicate, if_neg (by simp), List.replicate_succ,
        List.reverse_cons, List.foldl_append]
      rfl
    | cons n names =>
      have hn := hnames n (by simp)
      rw [List.cons_append, enter_above_name hn, List.reverse_cons, List.foldl_append,
        List.foldl_cons, List.foldl_nil, enter_name hn, enter_above_name hn]
  · rw [enter_name hname, List.reverse_cons, List.foldl_append]
    rfl

/-- The way that is left of some parts leads to where the parts lead, from anywhere. -/
theorem foldl_enter_read (h : NormalStack false read)
    (hparts : ∀ part ∈ parts, ∀ b ∈ part, isSeparator b = false) :
    (parts.foldl (enter false) read).reverse.foldl (enter rooted) stack =
      parts.foldl (enter rooted) (read.reverse.foldl (enter rooted) stack) := by
  induction parts generalizing read with
  | nil => rfl
  | cons part parts ih =>
    have hpart := hparts part (by simp)
    rw [List.foldl_cons, List.foldl_cons, ih (normalStack_enter h hpart)
      fun q hq => hparts q (List.mem_cons_of_mem _ hq), foldl_enter_enter h hpart]

theorem foldl_enter_splitOnP (h : isRooted t = false) :
    (t.splitOnP isSeparator).foldl (enter rooted) stack =
      (ofText t).parts.foldl (enter rooted) stack := by
  have hempty : NormalStack false [] := ⟨[], 0, rfl, by simp, by simp⟩
  rw [ofText, h]
  exact (foldl_enter_read hempty fun part hpart => Text.plain_of_mem_splitOnP hpart).symm

theorem ofText_join (hdir : isAbsolute dir = true) (h : isRooted t = false) :
    ofText (join dir t) =
      ⟨true, ((ofText t).parts.foldl (enter true) (ofText dir).parts.reverse).reverse⟩ := by
  have hne : dir ≠ [] := by
    rintro rfl
    cases hdir
  have hrooted : isRooted (join dir t) = true := by
    have habsolute : isAbsolute (join dir t) = true := by
      unfold join
      split_ifs <;> rw [isAbsolute_append hne, hdir]
    exact isRooted_of_isAbsolute habsolute
  have hread : ((join dir t).splitOnP isSeparator).foldl (enter true) [] =
      (t.splitOnP isSeparator).foldl (enter true) (ofText dir).parts.reverse := by
    rw [ofText, isRooted_of_isAbsolute hdir, List.reverse_reverse]
    unfold join
    split_ifs with hlast
    · obtain ⟨front, rfl⟩ := List.getLast?_eq_some_iff.mp hlast
      rw [List.append_assoc, List.singleton_append, List.splitOnP_append_cons _ _ (by decide),
        List.splitOnP_append_cons _ _ (by decide), List.foldl_append, List.foldl_append]
      rfl
    · rw [List.splitOnP_append_cons _ _ (by decide), List.foldl_append]
  rw [ofText, hrooted, hread, foldl_enter_splitOnP h]

/-! ## Seen from the root -/

/-- What stands before the paths below a directory. -/
def lead (dir : Text) : Text := if dir = [slash] then dir else dir ++ [slash]

theorem relativeTo_of_not_lead (habsolute : isAbsolute root = true)
    (hnormal : normalize root = root) (hne : normalize t ≠ root)
    (h : ¬ lead root <+: normalize t) : relativeTo t root = normalize t := by
  have hhere : root ≠ here := by
    rintro rfl
    cases habsolute
  have hnone := isPrefixOf?_eq_none_iff.mpr h
  unfold lead at hnone
  unfold relativeTo
  rw [hnormal]
  dsimp only
  rw [if_neg hhere, if_neg hne, hnone]
  rfl

theorem relativeTo_of_not_rooted (habsolute : isAbsolute root = true)
    (hnormal : normalize root = root) (h : isRooted t = false) :
    relativeTo t root = normalize t := by
  have hpath : isAbsolute (normalize t) = false := by rw [isAbsolute_normalize_eq, h]
  have hroot : root ≠ [] := by
    rintro rfl
    cases habsolute
  have hlead : isAbsolute (lead root) = true := by
    unfold lead
    split_ifs
    · exact habsolute
    · rw [isAbsolute_append hroot, habsolute]
  refine relativeTo_of_not_lead habsolute hnormal ?_ ?_
  · intro heq
    rw [heq, habsolute] at hpath
    cases hpath
  · rintro ⟨rest, hrest⟩
    have hne : lead root ≠ [] := by
      intro heq
      rw [heq] at hlead
      cases hlead
    rw [← hrest, isAbsolute_append hne, hlead] at hpath
    cases hpath

theorem prefix_of_lead (hnames : ∀ n ∈ names, IsName n) (htop : ∀ n ∈ top, IsName n)
    (h : lead (rootedText top) <+: rootedText names) : top <+: names := by
  rcases eq_or_ne top [] with rfl | hne
  · exact List.nil_prefix
  have hsplit {parts : List Text} (hparts : ∀ n ∈ parts, IsName n) (hne : parts ≠ []) :
      (rootedText parts).splitOn slash = [] :: parts := by
    exact splitOn_toText (p := ⟨true, parts⟩) ⟨0, parts, rfl, hparts, fun _ => rfl⟩ hne
  obtain ⟨rest, hrest⟩ := h
  have hroot : rootedText top ≠ [slash] := by
    intro heq
    exact getLast?_rootedText hne htop (by rw [heq]; rfl)
  rw [lead, if_neg hroot, List.append_assoc, List.singleton_append] at hrest
  have hnil : names ≠ [] := by
    rintro rfl
    have hlength := congrArg List.length hrest
    have hpos : 0 < (rootedText top).length := by simp [rootedText, toText]
    rw [List.length_append, List.length_cons, show rootedText [] = [slash] from rfl,
      List.length_singleton] at hlength
    omega
  have hparts := congrArg (List.splitOn slash) hrest
  rw [List.splitOn_append_cons_self, hsplit htop hne, hsplit hnames hnil, List.cons_append,
    List.cons.injEq] at hparts
  exact ⟨rest.splitOn slash, hparts.2⟩

theorem relativeTo_names (hnames : ∀ n ∈ names, IsName n) (htop : ∀ n ∈ top, IsName n) :
    relativeTo (rootedText names) (rootedText top) =
      (top.isPrefixOf? names).elim (rootedText names) fun below => toText ⟨false, below⟩ := by
  have htopNormal := normalize_rootedText htop
  have hnamesNormal := normalize_rootedText hnames
  cases hbelow : top.isPrefixOf? names with
  | none =>
    have hnot := isPrefixOf?_eq_none_iff.mp hbelow
    rw [relativeTo_of_not_lead rfl htopNormal, hnamesNormal]
    · rfl
    · rw [hnamesNormal]
      intro heq
      exact hnot (rootedText_inj hnames htop heq ▸ List.prefix_rfl)
    · rw [hnamesNormal]
      intro hlead
      exact hnot (prefix_of_lead hnames htop hlead)
  | some below =>
    obtain rfl := List.isPrefixOf?_eq_some_iff_append_eq.mp hbelow
    rcases eq_or_ne below [] with rfl | hne
    · rw [List.append_nil]
      have hhere : rootedText top ≠ here := by
        intro heq
        cases heq
      unfold relativeTo
      rw [htopNormal]
      dsimp only
      rw [if_neg hhere, if_pos rfl]
      rfl
    · rw [relativeTo_rootedText hnames hne, Option.elim_some, toText, if_neg (by simp),
        if_neg hne]

theorem relativeTo_normalize (t root : Text) :
    relativeTo (normalize t) root = relativeTo t root := by
  unfold relativeTo
  rw [normalize_normalize]

/-! ## Back from the root -/

theorem normal_of_names (h : ∀ n ∈ below, IsName n) : (⟨rooted, below⟩ : Path).Normal :=
  ⟨0, below, rfl, h, fun _ => rfl⟩

theorem canonical_names (htop : ∀ n ∈ top, IsName n) (hbelow : ∀ n ∈ below, IsName n) :
    Disk.canonical (rootedText top) (toText ⟨false, below⟩) = rootedText (top ++ below) := by
  have hnormal : (⟨false, below⟩ : Path).Normal := normal_of_names hbelow
  have hread := ofText_toText hnormal
  have habsolute : isAbsolute (toText ⟨false, below⟩) = false := isAbsolute_toText hnormal
  have hrooted : isRooted (toText ⟨false, below⟩) = false := congrArg Path.rooted hread
  rw [Disk.canonical, absolute, if_neg (by simp [habsolute]), normalize,
    ofText_join rfl hrooted, hread, ofText_rootedText htop, foldl_enter_names hbelow]
  simp [rootedText]

theorem canonical_relativeTo_names (hnames : ∀ n ∈ names, IsName n) (htop : ∀ n ∈ top, IsName n) :
    Disk.canonical (rootedText top) (relativeTo (rootedText names) (rootedText top)) =
      rootedText names := by
  rw [relativeTo_names hnames htop]
  cases hbelow : top.isPrefixOf? names with
  | none => exact normalize_rootedText hnames
  | some below =>
    obtain rfl := List.isPrefixOf?_eq_some_iff_append_eq.mp hbelow
    exact canonical_names htop fun n hn => hnames n (List.mem_append_right _ hn)

/-- A path is shown as one that leads to the same place. -/
theorem canonical_relativeTo (habsolute : isAbsolute root = true)
    (hnormal : normalize root = root) (h : t.head? ≠ some backslash) :
    Disk.canonical root (relativeTo t root) = Disk.canonical root t := by
  cases hpath : isAbsolute t with
  | true =>
    obtain ⟨top, hroot, htop⟩ := exists_rootedText habsolute
    obtain ⟨names, ht, hnames⟩ := exists_rootedText hpath
    rw [hnormal] at hroot
    have hcanonical : Disk.canonical root t = rootedText names := by
      rw [Disk.canonical, absolute, if_pos hpath, ht]
    rw [hcanonical, ← relativeTo_normalize, ht, hroot, canonical_relativeTo_names hnames htop]
  | false =>
    have hrooted : isRooted t = false := by
      cases t with
      | nil => rfl
      | cons b t =>
        have hslash : b ≠ slash := by simpa [isAbsolute] using hpath
        have hback : b ≠ backslash := by simpa using h
        simp [isRooted, isSeparator, hslash, hback]
    have hread : ofText (normalize t) = ofText t := ofText_toText (normal_ofText t)
    have hsame : ofText (join root (normalize t)) = ofText (join root t) := by
      rw [ofText_join habsolute hrooted,
        ofText_join habsolute ((congrArg Path.rooted hread).trans hrooted), hread]
    have hplace : isAbsolute (normalize t) = false := by rw [isAbsolute_normalize_eq, hrooted]
    rw [relativeTo_of_not_rooted habsolute hnormal hrooted, Disk.canonical, Disk.canonical,
      absolute, absolute, if_neg (by simp [hplace]), if_neg (by simp [hpath])]
    exact congrArg toText hsame

theorem canonical_relativeTo_of_isAbsolute (habsolute : isAbsolute root = true)
    (hnormal : normalize root = root) (h : isAbsolute t = true) :
    Disk.canonical root (relativeTo t root) = normalize t := by
  rw [canonical_relativeTo habsolute hnormal (head?_ne_backslash h), Disk.canonical, absolute,
    if_pos h]

theorem relativeTo_eq_iff (habsolute : isAbsolute root = true) (hnormal : normalize root = root)
    (ht : isAbsolute t = true) (hu : isAbsolute u = true) :
    relativeTo t root = relativeTo u root ↔ normalize t = normalize u := by
  constructor
  · intro heq
    rw [← canonical_relativeTo_of_isAbsolute habsolute hnormal ht, heq,
      canonical_relativeTo_of_isAbsolute habsolute hnormal hu]
  · intro heq
    rw [← relativeTo_normalize, heq, relativeTo_normalize]

theorem relativeTo_beside {b : Byte} {rest : Text} (habsolute : isAbsolute root = true)
    (hnormal : normalize root = root) (h : normalize t = root ++ b :: rest) (hb : b ≠ slash)
    (hroot : root ≠ [slash]) : relativeTo t root = normalize t := by
  refine relativeTo_of_not_lead habsolute hnormal ?_ ?_
  · rw [h]
    simp
  · rw [h, lead, if_neg hroot, List.prefix_append_right_inj, List.cons_prefix_cons]
    exact fun hslash => hb hslash.1.symm

theorem isAbsolute_relativeTo_names (hnames : ∀ n ∈ names, IsName n)
    (htop : ∀ n ∈ top, IsName n) :
    isAbsolute (relativeTo (rootedText names) (rootedText top)) = false ↔ top <+: names := by
  rw [relativeTo_names hnames htop]
  cases hbelow : top.isPrefixOf? names with
  | none =>
    exact iff_of_false (by simp [isAbsolute, rootedText, toText])
      (isPrefixOf?_eq_none_iff.mp hbelow)
  | some below =>
    obtain rfl := List.isPrefixOf?_eq_some_iff_append_eq.mp hbelow
    exact iff_of_true (isAbsolute_toText (normal_of_names fun n hn =>
      hnames n (List.mem_append_right _ hn))) (List.prefix_append _ _)

theorem isAbsolute_relativeTo (habsolute : isAbsolute root = true)
    (hnormal : normalize root = root) (h : isAbsolute t = true) :
    isAbsolute (relativeTo t root) = false ↔ (ofText root).parts <+: (ofText t).parts := by
  obtain ⟨top, hroot, htop⟩ := exists_rootedText habsolute
  obtain ⟨names, ht, hnames⟩ := exists_rootedText h
  have hread : ofText t = ⟨true, names⟩ := by
    rw [← ofText_toText (normal_ofText t), ← ofText_rootedText hnames, ← ht]
    rfl
  rw [hnormal] at hroot
  rw [← relativeTo_normalize, ht, hread, hroot, ofText_rootedText htop]
  exact isAbsolute_relativeTo_names hnames htop

end Path

/-! ## The files of found bodies -/

theorem Session.exists_candidate_of_find {σ : Type} {ws : Workspace (StateM σ)} {s : Session}
    {st : σ} {header : Text} {definitions : List Definition} {d : Definition} (hws : ws.Steady)
    (h : ((s.find ws header).run st).1.1 = .ok definitions) (hd : d ∈ definitions) :
    ∃ prototypes text, s.scanned? ws header = some prototypes ∧
      d.file ∈ ws.candidatesAt st s.settings.query ∧ ws.readAt st d.file = .ok text ∧
        d ∈ Definition.ofText (Prototype.names prototypes) text d.file := by
  rw [find_run hws] at h
  cases hscanned : s.scanned? ws header with
  | none =>
    rw [hscanned] at h
    cases h
  | some prototypes =>
    rw [hscanned] at h
    cases h
    unfold found at hd
    split_ifs at hd
    · cases hd
    · obtain ⟨file, hfile, text, htext, hd⟩ := Workspace.mem_definitions hd
      obtain rfl := (Definition.fits_of_mem_ofText hd).1
      exact ⟨prototypes, text, rfl, hfile, htext, hd⟩

namespace FileTree

variable {t : FileTree} {dir : List Text} {root path : Text} {query : Query}

theorem exists_canonical_of_candidate
    (h : path ∈ ((disk dir).workspace root).candidatesAt t query) :
    ∃ shown, path = Disk.canonical root shown := by
  have hselect : ∀ files, path ∈ Disk.select query root files →
      ∃ shown, path = Disk.canonical root shown := by
    intro files hmem
    obtain ⟨shown, -, rfl⟩ := List.mem_map.mp (List.mem_mergeSort.mp (List.mem_of_mem_take hmem))
    exact ⟨shown, rfl⟩
  have hcandidates : path ∈ (((disk dir).candidates root query).run t).1 := h
  unfold Disk.candidates at hcandidates
  split_ifs at hcandidates
  · cases hcandidates
  · rw [run_bind_eq] at hcandidates
    split at hcandidates
    · exact hselect _ hcandidates
    · cases hcandidates

theorem display_resolves {s : Session} {header : Text} {definitions : List Definition}
    {d : Definition} (habsolute : Path.isAbsolute root = true)
    (hnormal : Path.normalize root = root) (hs : s.settings.root = root)
    (h : ((s.find ((disk dir).workspace root) header).run t).1.1 = .ok definitions)
    (hd : d ∈ definitions) :
    ((disk dir).workspace root).canonical (s.display d.file) = d.file ∧
      ∃ prototypes text, s.scanned? ((disk dir).workspace root) header = some prototypes ∧
        ((disk dir).workspace root).readAt t (s.display d.file) = .ok text ∧
          d ∈ Definition.ofText (Prototype.names prototypes) text d.file := by
  obtain ⟨prototypes, text, hscanned, hfile, hread, hmem⟩ :=
    Session.exists_candidate_of_find (steady_workspace dir root) h hd
  obtain ⟨shown, hshown⟩ := exists_canonical_of_candidate hfile
  have hcanonical : Disk.canonical root d.file = d.file := by
    rw [hshown, Disk.canonical_canonical habsolute]
  have hplace : Path.isAbsolute d.file = true := by
    rw [hshown]
    exact Path.isAbsolute_normalize (Path.isAbsolute_absolute habsolute shown)
  have hsame : Disk.canonical root (s.display d.file) = Disk.canonical root d.file := by
    rw [Session.display, hs,
      Path.canonical_relativeTo habsolute hnormal (Path.head?_ne_backslash hplace)]
  refine ⟨hsame.trans hcanonical, prototypes, text, hscanned, ?_, hmem⟩
  have hplaces : ((disk dir).workspace root).readAt t (s.display d.file) =
      ((disk dir).workspace root).readAt t d.file := by
    unfold Workspace.readAt Disk.workspace
    dsimp only
    rw [hsame]
  rw [hplaces, hread]

/-- A path as it is shown leads from the root to where the path itself leads. -/
theorem relativeTo_resolves (habsolute : Path.isAbsolute root = true)
    (hnormal : Path.normalize root = root) :
    (∀ p : Text, p.head? ≠ some backslash →
      Disk.canonical root (Path.relativeTo p root) = Disk.canonical root p) ∧
    (∀ p q, Path.isAbsolute p = true → Path.isAbsolute q = true →
      (Path.relativeTo p root = Path.relativeTo q root ↔ Path.normalize p = Path.normalize q)) ∧
    (∀ p, Path.isAbsolute p = true → (Path.isAbsolute (Path.relativeTo p root) = false ↔
      (Path.ofText root).parts <+: (Path.ofText p).parts)) ∧
    (∀ p b rest, Path.normalize p = root ++ b :: rest → b ≠ slash → root ≠ [slash] →
      Path.relativeTo p root = Path.normalize p) ∧
    ∀ (t : FileTree) (dir : List Text) (s : Session) (header : Text)
      (definitions : List Definition), s.settings.root = root →
      ((s.find ((disk dir).workspace root) header).run t).1.1 = .ok definitions →
      ∀ d ∈ definitions, ((disk dir).workspace root).canonical (s.display d.file) = d.file ∧
        ∃ prototypes text, s.scanned? ((disk dir).workspace root) header = some prototypes ∧
          ((disk dir).workspace root).readAt t (s.display d.file) = .ok text ∧
            d ∈ Definition.ofText (Prototype.names prototypes) text d.file := by
  refine ⟨fun p hp => Path.canonical_relativeTo habsolute hnormal hp,
    fun p q hp hq => Path.relativeTo_eq_iff habsolute hnormal hp hq,
    fun p hp => Path.isAbsolute_relativeTo habsolute hnormal hp,
    fun p b rest hp hb hroot => Path.relativeTo_beside habsolute hnormal hp hb hroot, ?_⟩
  intro t dir s header definitions hs h d hd
  exact display_resolves habsolute hnormal hs h hd

theorem relativeTo_resolves_source :
    let t := ({} : FileTree).putFile ["w", "a.c"] { bytes := "void f() {}\n" }
    let s : Session := {
      settings := { root := "/w" }
      headers := ⟨[("/w/a.h", [{ name := "f" }])]⟩ }
    let ws := (disk []).workspace "/w"
    let d : Definition := ⟨"f", 0, ⟨0, 0⟩, "/w/a.c"⟩
    Disk.canonical "/w" (Path.relativeTo "/w/./a.c" "/w") = Disk.canonical "/w" "/w/./a.c" ∧
      Path.relativeTo "/w2/a.c" "/w" = "/w2/a.c" ∧
      ((s.find ws "a.h").run t).1.1 = .ok [d] ∧ ws.canonical (s.display "/w/a.c") = "/w/a.c" := by
  intro t s ws d
  have hfind : ((s.find ws "a.h").run t).1.1 = .ok [d] := by
    dsimp only [s, ws, t, d]
    decide +kernel
  have hroot : Path.isAbsolute "/w" = true ∧ Path.normalize "/w" = "/w" := by decide
  obtain ⟨hresolves, -, -, hbeside, hshown⟩ := relativeTo_resolves hroot.1 hroot.2
  exact ⟨hresolves _ (by decide), hbeside "/w2/a.c" 50 "/a.c" (by decide) (by decide) (by decide),
    hfind, (hshown t [] s "a.h" [d] rfl hfind d (by simp)).1⟩

end FileTree

end HeaderOrder
