import HeaderOrder.CommandLine
import HeaderOrder.Proofs.Arguments
import HeaderOrder.Proofs.Grammar

/-!
# The grammar of arguments

The groups are stated apart from the reader.
-/

namespace HeaderOrder

open Byte Text

namespace Argument

/-! ## Groups -/

/-- Not taken for an option: empty, a single dash, or not starting with a dash. -/
def IsPositional (text : Text) : Prop := text = [] ∨ text = "-" ∨ text.head? ≠ some dash

def switches (allowDryRun : Bool) : List Text :=
  "--verbose" :: "-v" :: "--quiet" :: "-q" :: if allowDryRun then ["--dry-run"] else []

def valueOptions : List Text := ["--root", "--config", "--include", "--exclude", "--limit"]

/-- The arguments of one group, and what they say. The value of an option may be any argument, one
that looks like an option too. -/
inductive Group (allowDryRun : Bool) : List Text → Argument → Prop
  | verbose {text : Text} (h : text = "--verbose" ∨ text = "-v") :
    Group allowDryRun [text] .verbose
  | quiet {text : Text} (h : text = "--quiet" ∨ text = "-q") : Group allowDryRun [text] .quiet
  | dryRun (h : allowDryRun = true) : Group allowDryRun ["--dry-run"] .dryRun
  | root (path : Text) : Group allowDryRun ["--root", path] (.root path)
  | config (path : Text) : Group allowDryRun ["--config", path] (.config path)
  | included (pattern : Text) : Group allowDryRun ["--include", pattern] (.included pattern)
  | excluded (pattern : Text) : Group allowDryRun ["--exclude", pattern] (.excluded pattern)
  | limit {value : Text} (h : Manifest.IsLimit value) :
    Group allowDryRun ["--limit", value] (.limit (Manifest.digitsValue value))
  | positional {text : Text} (h : IsPositional text) :
    Group allowDryRun [text] (.positional text)

/-- The arguments are these groups, one after another. -/
inductive Splits (allowDryRun : Bool) : List Text → List Argument → Prop
  | nil : Splits allowDryRun [] []
  | cons {g texts : List Text} {x : Argument} {groups : List Argument}
    (h : Group allowDryRun g x) (hrest : Splits allowDryRun texts groups) :
    Splits allowDryRun (g ++ texts) (x :: groups)

/-- No group starts at the first of the arguments, or none is completed there. -/
inductive Stuck (allowDryRun : Bool) : List Text → Error → Prop
  | unknown {text : Text} (hoption : ¬ IsPositional text) (hswitch : text ∉ switches allowDryRun)
    (hvalue : text ∉ valueOptions) (rest : List Text) :
    Stuck allowDryRun (text :: rest) (.unknownOption text)
  | missing {text : Text} (h : text ∈ valueOptions) :
    Stuck allowDryRun [text] (.missingValue text)
  | limit {value : Text} (h : ¬ Manifest.IsLimit value) (rest : List Text) :
    Stuck allowDryRun ("--limit" :: value :: rest) (.invalidLimit value)

/-- The arguments that an error is about. -/
def Error.about : Error → List Text
  | .unknownOption text => [text]
  | .missingValue option => [option]
  | .invalidLimit value => ["--limit", value]

variable {allowDryRun : Bool} {texts texts' front g rest : List Text} {text value : Text}
  {x : Argument} {groups groups' : List Argument} {e : Error}

/-! ## Errors -/

/-- Reading is stuck at the arguments that the error is about. -/
theorem Stuck.about_prefix (h : Stuck allowDryRun rest e) : e.about ≠ [] ∧ e.about <+: rest := by
  cases h with
  | unknown hoption hswitch hvalue rest => exact ⟨by simp [Error.about], rest, rfl⟩
  | missing hvalue => exact ⟨by simp [Error.about], [], rfl⟩
  | limit hlimit rest => exact ⟨by simp [Error.about], rest, rfl⟩

theorem Error.infix_message (h : text ∈ e.about) : text <:+: e.message := by
  cases e with
  | missingValue option =>
    obtain rfl := List.mem_singleton.mp h
    exact ⟨"missing value for ", [], by simp [message]⟩
  | unknownOption option =>
    obtain rfl := List.mem_singleton.mp h
    exact ⟨"unknown option '", "'", by simp [message]⟩
  | invalidLimit value =>
    rcases List.mem_pair.mp h with rfl | rfl
    · have hoption : ofString "--limit expects a positive integer, got '" =
          ofString "--limit" ++ ofString " expects a positive integer, got '" := by decide
      exact ⟨[], " expects a positive integer, got '" ++ value ++ "'", by simp [message, hoption]⟩
    · exact ⟨"--limit expects a positive integer, got '", "'", by simp [message]⟩

/-! ## What one argument starts -/

theorem isPositional_iff : IsPositional text ↔ looksLikeOption text = false := by
  unfold IsPositional looksLikeOption
  match text with
  | [] => simp
  | [b] =>
    have hdash : ([b] = ofString "-") ↔ b = dash := by
      rw [show ofString "-" = [dash] from rfl, List.singleton_inj]
    simp [hdash, em]
  | b :: c :: t =>
    have hdash : b :: c :: t ≠ ofString "-" := by simp [show ofString "-" = [dash] from rfl]
    simp [hdash]

theorem single?_of_isPositional (h : IsPositional text) :
    single? allowDryRun text = some (.positional text) := by
  rw [isPositional_iff] at h
  have hname : ∀ name : Text, looksLikeOption name = true → text ≠ name := by
    rintro name hname rfl
    simp [h] at hname
  unfold single?
  rw [if_neg, if_neg, if_neg, if_neg (by simp [h])]
  · exact fun hdry => hname _ (by decide) hdry.2
  · exact not_or.mpr ⟨hname _ (by decide), hname _ (by decide)⟩
  · exact not_or.mpr ⟨hname _ (by decide), hname _ (by decide)⟩

theorem single?_eq_some_iff :
    single? allowDryRun text = some x ↔ Group allowDryRun [text] x := by
  constructor
  · intro h
    unfold single? at h
    split_ifs at h with hverbose hquiet hdry hoption
    · cases h
      exact .verbose hverbose
    · cases h
      exact .quiet hquiet
    · cases h
      obtain ⟨hallow, rfl⟩ := hdry
      exact .dryRun hallow
    · cases h
      exact .positional (isPositional_iff.mpr (by simpa using hoption))
  · intro h
    cases h with
    | verbose h => exact if_pos h
    | quiet h => rcases h with rfl | rfl <;> rfl
    | dryRun h =>
      rw [h]
      rfl
    | positional h => exact single?_of_isPositional h

theorem valued?_isSome_iff : (valued? text).isSome = true ↔ text ∈ valueOptions := by
  unfold valued? valueOptions
  split_ifs <;> simp_all

theorem single?_eq_none_iff : single? allowDryRun text = none ↔
    ¬ IsPositional text ∧ text ∉ switches allowDryRun := by
  have hswitch : text ∈ switches allowDryRun ↔ (text = "--verbose" ∨ text = "-v") ∨
      (text = "--quiet" ∨ text = "-q") ∨ (allowDryRun = true ∧ text = "--dry-run") := by
    unfold switches
    cases allowDryRun <;> simp [or_assoc]
  rw [isPositional_iff, hswitch]
  unfold single?
  split_ifs <;> simp_all

/-! ## One group or an error -/

theorem read_of_group (h : Group allowDryRun g x) (rest : List Text) :
    read allowDryRun (g ++ rest) =
      (x :: (read allowDryRun rest).1, (read allowDryRun rest).2) := by
  have hsingle : ∀ text, Group allowDryRun [text] x →
      read allowDryRun ([text] ++ rest) =
        (x :: (read allowDryRun rest).1, (read allowDryRun rest).2) := by
    intro text h
    rw [List.singleton_append, read, single?_eq_some_iff.mpr h]
  cases h with
  | verbose h => exact hsingle _ (.verbose h)
  | quiet h => exact hsingle _ (.quiet h)
  | dryRun h => exact hsingle _ (.dryRun h)
  | positional h => exact hsingle _ (.positional h)
  | root path => exact read_valued (show valued? "--root" = some _ from rfl) path rest
  | config path => exact read_valued (show valued? "--config" = some _ from rfl) path rest
  | included pattern => exact read_valued (show valued? "--include" = some _ from rfl) pattern rest
  | excluded pattern => exact read_valued (show valued? "--exclude" = some _ from rfl) pattern rest
  | @limit value h =>
    have hread := read_valued (d := allowDryRun) (show valued? "--limit" = some _ from rfl) value rest
    rw [Manifest.positive?_of_isLimit h] at hread
    exact hread

theorem read_of_stuck (h : Stuck allowDryRun texts e) : read allowDryRun texts = ([], some e) := by
  cases h with
  | @unknown text hoption hswitch hvalue rest =>
    have hnone : valued? text = none := by
      rw [← valued?_isSome_iff, Bool.not_eq_true, Option.isSome_eq_false_iff] at hvalue
      exact Option.isNone_iff_eq_none.mp hvalue
    rw [read, single?_eq_none_iff.mpr ⟨hoption, hswitch⟩]
    dsimp only
    rw [hnone]
  | missing h =>
    obtain ⟨make, hmake⟩ := Option.isSome_iff_exists.mp (valued?_isSome_iff.mpr h)
    rw [read, single?_of_valued hmake]
    dsimp only
    rw [hmake]
  | @limit value h rest =>
    have hread := read_valued (d := allowDryRun) (show valued? "--limit" = some _ from rfl) value rest
    rw [Manifest.positive?_of_not_isLimit h] at hread
    exact hread

theorem group_or_stuck (allowDryRun : Bool) (hne : texts ≠ []) :
    (∃ g x rest, Group allowDryRun g x ∧ texts = g ++ rest) ∨ ∃ e, Stuck allowDryRun texts e := by
  obtain ⟨text, rest, rfl⟩ := List.exists_cons_of_ne_nil hne
  cases hsingle : single? allowDryRun text with
  | some x => exact .inl ⟨[text], x, rest, single?_eq_some_iff.mp hsingle, rfl⟩
  | none =>
    obtain ⟨hoption, hswitch⟩ := single?_eq_none_iff.mp hsingle
    by_cases hvalue : text ∈ valueOptions
    · match rest with
      | [] => exact .inr ⟨_, .missing hvalue⟩
      | value :: rest =>
        simp only [valueOptions, List.mem_cons, List.not_mem_nil, or_false] at hvalue
        rcases hvalue with rfl | rfl | rfl | rfl | rfl
        · exact .inl ⟨_, _, rest, .root value, rfl⟩
        · exact .inl ⟨_, _, rest, .config value, rfl⟩
        · exact .inl ⟨_, _, rest, .included value, rfl⟩
        · exact .inl ⟨_, _, rest, .excluded value, rfl⟩
        · by_cases hlimit : Manifest.IsLimit value
          · exact .inl ⟨_, _, rest, .limit hlimit, rfl⟩
          · exact .inr ⟨_, .limit hlimit rest⟩
    · exact .inr ⟨_, .unknown hoption hswitch hvalue rest⟩

theorem not_group_of_stuck (h : Stuck allowDryRun texts e) (hg : Group allowDryRun g x) :
    texts ≠ g ++ rest := by
  rintro rfl
  have hread := read_of_stuck h
  simp [read_of_group hg] at hread

/-! ## All groups -/

theorem read_of_splits (h : Splits allowDryRun front groups) (rest : List Text) :
    read allowDryRun (front ++ rest) =
      (groups ++ (read allowDryRun rest).1, (read allowDryRun rest).2) := by
  induction h with
  | nil => rfl
  | cons hg _ ih =>
    rw [List.append_assoc, read_of_group hg, ih]
    rfl

theorem length_pos_of_group (h : Group allowDryRun g x) : 0 < g.length := by
  cases h <;> simp

/-- Arguments split into groups, or else they do up to where reading is stuck. -/
theorem splits_or_stuck (allowDryRun : Bool) (texts : List Text) :
    (∃ groups, Splits allowDryRun texts groups) ∨ ∃ front groups rest e, texts = front ++ rest ∧
      Splits allowDryRun front groups ∧ Stuck allowDryRun rest e := by
  induction hn : texts.length using Nat.strongRecOn generalizing texts with
  | _ n ih =>
    by_cases hne : texts = []
    · rw [hne]
      exact .inl ⟨[], .nil⟩
    · rcases group_or_stuck allowDryRun hne with ⟨g, x, rest, hg, rfl⟩ | ⟨e, hstuck⟩
      · have hlt : rest.length < n := by
          have := length_pos_of_group hg
          rw [← hn, List.length_append]
          omega
        rcases ih _ hlt rest rfl with
          ⟨groups, hsplits⟩ | ⟨front, groups, rest, e, rfl, hsplits, hstuck⟩
        · exact .inl ⟨x :: groups, .cons hg hsplits⟩
        · exact .inr ⟨g ++ front, x :: groups, rest, e, (List.append_assoc _ _ _).symm,
            .cons hg hsplits, hstuck⟩
      · exact .inr ⟨[], [], texts, e, rfl, .nil, hstuck⟩

theorem read_eq_of_splits (h : Splits allowDryRun texts groups) :
    read allowDryRun texts = (groups, none) := by
  have hread := read_of_splits h []
  rw [List.append_nil, read, List.append_nil] at hread
  exact hread

theorem read_eq_of_stuck (h : Splits allowDryRun front groups) (hstuck : Stuck allowDryRun rest e) :
    read allowDryRun (front ++ rest) = (groups, some e) := by
  rw [read_of_splits h, read_of_stuck hstuck, List.append_nil]

/-! ## What the groups say -/

def positional? : Argument → Option Text
  | .positional text => some text
  | _ => none

end Argument

namespace Arguments

open Argument

variable {groups groups' : List Argument}

/-- The arguments with what some groups say. The positional arguments of the groups come behind those
that are there. An option has its last value, or the one it had when no group gives it one. -/
def extend (a : Arguments) (groups : List Argument) : Arguments where
  positionals := a.positionals ++ groups.filterMap positional?
  dryRun := a.dryRun || groups.contains .dryRun
  root := (groups.filterMap fun | .root path => some path | _ => none).getLast?.getD a.root
  config := (groups.filterMap fun | .config path => some path | _ => none).getLast?.getD a.config
  included := (groups.filterMap fun
    | .included pattern => some pattern
    | _ => none).getLast?.or a.included
  excluded := (groups.filterMap fun
    | .excluded pattern => some pattern
    | _ => none).getLast?.or a.excluded
  limit := (groups.filterMap fun | .limit n => some n | _ => none).getLast?.or a.limit
  verbose := a.verbose || groups.contains .verbose
  quiet := a.quiet || groups.contains .quiet

theorem foldl_add (a : Arguments) (groups : List Argument) :
    groups.foldl add a = a.extend groups := by
  -- A later group takes the place of an earlier one, so the induction is on the last group.
  induction groups using List.reverseRecOn with
  | nil => simp [extend]
  | append_singleton groups x ih =>
    rw [List.foldl_append, ih]
    cases x <;> simp [extend, add, positional?]

/-- The options and the positional arguments may stand in any order towards each other. -/
theorem extend_congr (a : Arguments)
    (hpositionals : groups.filterMap positional? = groups'.filterMap positional?)
    (hoptions : groups.filter (·.positional?.isNone) = groups'.filter (·.positional?.isNone)) :
    a.extend groups = a.extend groups' := by
  have hvalues : ∀ {β : Type} (f : Argument → Option β), (∀ text, f (.positional text) = none) →
      groups.filterMap f = groups'.filterMap f := by
    intro β f hf
    have hfilter : ∀ l : List Argument,
        (l.filter (·.positional?.isNone)).filterMap f = l.filterMap f := by
      intro l
      rw [List.filterMap_filter]
      congr
      funext x
      cases x <;> simp [positional?, hf]
    rw [← hfilter groups, hoptions, hfilter]
  have hswitch : ∀ x : Argument, x.positional? = none →
      groups.contains x = groups'.contains x := by
    intro x hx
    have hmem : ∀ l : List Argument, x ∈ l.filter (·.positional?.isNone) ↔ x ∈ l := by
      simp [hx]
    rw [Bool.eq_iff_iff, List.contains_iff_mem, List.contains_iff_mem, ← hmem, hoptions, hmem]
  unfold extend
  rw [hpositionals, hvalues _ fun _ => rfl, hvalues _ fun _ => rfl, hvalues _ fun _ => rfl,
    hvalues _ fun _ => rfl, hvalues _ fun _ => rfl, hswitch _ rfl, hswitch _ rfl, hswitch _ rfl]

/-! ## Parsing -/

variable {allowDryRun : Bool} {texts front rest : List Text} {e : Argument.Error}

theorem parse_of_splits (h : Splits allowDryRun texts groups) :
    parse allowDryRun texts = (extend {} groups, none) := by
  unfold parse
  rw [read_eq_of_splits h]
  dsimp only
  rw [foldl_add]

theorem parse_of_stuck (h : Splits allowDryRun front groups) (hstuck : Stuck allowDryRun rest e) :
    parse allowDryRun (front ++ rest) = (extend {} groups, some e) := by
  unfold parse
  rw [read_eq_of_stuck h hstuck]
  dsimp only
  rw [foldl_add]

theorem runSubcommand_of_error {m : Type → Type} [Monad m] (disk : Disk m) (input : m Text)
    (c : Subcommand) (h : (parse (c = .sync) texts).2 = some e) :
    disk.runSubcommand input c texts =
      pure { exit := .status 1, out := [], err := "error: " ++ e.message ++ "\n" } := by
  unfold Disk.runSubcommand
  rcases hparse : parse (c = .sync) texts with ⟨a, error⟩
  rw [hparse] at h
  cases h
  simp [Outcome.failure, Outcome.ofReply, Outcome.ofReplies, Reply.failure, Reply.errorLine]

/-- Arguments are accepted exactly by their grammar, in any interleaving. -/
theorem parse_follows_grammar (allowDryRun : Bool) (texts : List Text) :
    ((parse allowDryRun texts).2 = none ↔ ∃ groups, Splits allowDryRun texts groups) ∧
    (∀ groups, Splits allowDryRun texts groups →
      parse allowDryRun texts = (extend {} groups, none)) ∧
    (∀ texts' groups groups', Splits allowDryRun texts groups →
      Splits allowDryRun texts' groups' →
      groups.filterMap positional? = groups'.filterMap positional? →
      groups.filter (·.positional?.isNone) = groups'.filter (·.positional?.isNone) →
      parse allowDryRun texts = parse allowDryRun texts') ∧
    ∀ e, (parse allowDryRun texts).2 = some e →
      (∃ front groups rest, texts = front ++ rest ∧ Splits allowDryRun front groups ∧
        Stuck allowDryRun rest e ∧ (∀ g x rest', Group allowDryRun g x → rest ≠ g ++ rest') ∧
        (e.about ≠ [] ∧ e.about <+: rest ∧ ∀ text ∈ e.about, text <:+: e.message) ∧
        parse allowDryRun texts = (extend {} groups, some e)) ∧
      ∀ {m : Type → Type} [Monad m] (disk : Disk m) (input : m Text) (c : Subcommand),
        allowDryRun = decide (c = .sync) → disk.runSubcommand input c texts =
          pure { exit := .status 1, out := [], err := "error: " ++ e.message ++ "\n" } := by
  refine ⟨⟨?_, ?_⟩, fun groups => parse_of_splits, ?_, ?_⟩
  · intro hnone
    rcases splits_or_stuck allowDryRun texts with
      hsplits | ⟨front, groups, rest, e, rfl, hsplits, hstuck⟩
    · exact hsplits
    · simp [parse_of_stuck hsplits hstuck] at hnone
  · rintro ⟨groups, hsplits⟩
    rw [parse_of_splits hsplits]
  · intro texts' groups groups' h h' hpositionals hoptions
    rw [parse_of_splits h, parse_of_splits h', extend_congr {} hpositionals hoptions]
  · intro e he
    refine ⟨?_, ?_⟩
    · rcases splits_or_stuck allowDryRun texts with
        ⟨groups, hsplits⟩ | ⟨front, groups, rest, e', rfl, hsplits, hstuck⟩
      · simp [parse_of_splits hsplits] at he
      · have hparse := parse_of_stuck hsplits hstuck
        rw [hparse] at he
        cases he
        exact ⟨front, groups, rest, rfl, hsplits, hstuck,
          fun g x rest' hg => not_group_of_stuck hstuck hg,
          ⟨hstuck.about_prefix.1, hstuck.about_prefix.2, fun _ => Error.infix_message⟩, hparse⟩
    · rintro m _ disk input c rfl
      exact runSubcommand_of_error disk input c he

theorem parse_follows_grammar_mixed :
    let mixed : List Text := ["-v", "h.h", "--limit", "07", "--root", "-q", "a.cpp"]
    let sorted : List Text := ["h.h", "a.cpp", "--verbose", "--limit", "7", "--root", "-q"]
    let large : List Text := ["-", "--root", "--limit", "--limit", "18446744073709551616", "-x"]
    let a : Arguments :=
      { positionals := ["h.h", "a.cpp"], root := "-q", limit := some 7, verbose := true }
    parse true mixed = (a, none) ∧ parse true mixed = parse true sorted ∧
    (parse true large).2 = some (.invalidLimit "18446744073709551616") ∧
    ∃ front groups rest, large = front ++ rest ∧ Splits true front groups ∧
      Stuck true rest (.invalidLimit "18446744073709551616") := by
  intro mixed sorted large a
  have hlimit : ∀ value, positive? value ≠ none → Manifest.IsLimit value :=
    fun value h => by_contra fun hlimit => h (Manifest.positive?_of_not_isLimit hlimit)
  have hfirst : Splits true mixed
      [.verbose, .positional "h.h", .limit 7, .root "-q", .positional "a.cpp"] :=
    .cons (.verbose (.inr rfl)) <| .cons (.positional (.inr (.inr (by decide)))) <|
      .cons (.limit (hlimit _ (by decide))) <| .cons (.root _) <|
        .cons (.positional (.inr (.inr (by decide)))) .nil
  have hsecond : Splits true sorted
      [.positional "h.h", .positional "a.cpp", .verbose, .limit 7, .root "-q"] :=
    .cons (.positional (.inr (.inr (by decide)))) <|
      .cons (.positional (.inr (.inr (by decide)))) <| .cons (.verbose (.inl rfl)) <|
        .cons (.limit (hlimit _ (by decide))) <| .cons (.root _) .nil
  obtain ⟨-, hparse, hsame, -⟩ := parse_follows_grammar true mixed
  have hlarge : (parse true large).2 = some (.invalidLimit "18446744073709551616") := by
    decide +kernel
  obtain ⟨⟨front, groups, rest, hsplit, hfront, hstuck, -⟩, -⟩ :=
    (parse_follows_grammar true large).2.2.2 _ hlarge
  refine ⟨?_, hsame _ _ _ hfirst hsecond (by decide) (by decide), hlarge,
    front, groups, rest, hsplit, hfront, hstuck⟩
  rw [hparse _ hfirst]
  decide

end Arguments

end HeaderOrder
