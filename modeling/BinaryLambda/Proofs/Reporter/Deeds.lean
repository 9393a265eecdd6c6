import BinaryLambda.Proofs.Reporter
import Mathlib.Data.List.Find
import Mathlib.Data.List.Induction
import Mathlib.Data.List.Nodup

set_option autoImplicit false

/-!
# Reporters: what was done and what is left of it

All that is done with a reporter is one of four deeds: a line comes or goes at a path, a
step is registered, a warning is printed, a failure is reported.  The state of a reporter
that was fresh tells what was done (`accounts_enactAll`): whether a failure was reported,
which steps were registered, and which of the lines that still stand is at the path that
appeared first (`Stands`, `Located`).
-/

namespace BinaryLambda.Reporter

/-! ## Deeds -/

/-- What is done with a reporter.  A line that goes is one that is registered as none. -/
inductive Deed where
  | line (path : String) (line : Option String) (number : Option Int)
  | step (rule text : String)
  | warning (d : Diagnostic)
  | failure (d : Diagnostic)
  deriving DecidableEq, Repr, Inhabited

/-- The reporter after a deed. -/
def enact (r : Reporter) : Deed → Reporter
  | .line path line number => r.registerLine path line number
  | .step rule text => r.registerStep rule text
  | .warning d => r.warn d
  | .failure d => (r.report d).1

/-- The reporter after a sequence of deeds. -/
def enactAll (r : Reporter) (done : List Deed) : Reporter := done.foldl enact r

@[simp]
theorem enactAll_cons (r : Reporter) (deed : Deed) (done : List Deed) :
    r.enactAll (deed :: done) = (r.enact deed).enactAll done := rfl

@[simp]
theorem enactAll_append (r : Reporter) (done more : List Deed) :
    r.enactAll (done ++ more) = (r.enactAll done).enactAll more := List.foldl_append

/-- What a watcher of a run sees is a deed. -/
def Deed.ofEvent : Event → Deed
  | .step text => .step "β" text
  | .unfinished text cap => .warning (Event.unfinishedDiagnostic text cap)

theorem enact_ofEvent (r : Reporter) (event : Event) :
    r.enact (.ofEvent event) = r.notice event := by
  cases event <;> rfl

theorem enactAll_ofEvent (r : Reporter) (events : List Event) :
    r.enactAll (events.map .ofEvent) = r.follow events := by
  rw [enactAll, List.foldl_map, follow]
  exact congrArg (fun step => events.foldl step r) (funext₂ enact_ofEvent)

/-- The end of a block makes the report, and a fatal reporter asks to exit. -/
theorem settle_of_fatal {r : Reporter} {f : Failure} {d : Diagnostic} {settled : Bool}
    (hstatement : statement? f = some (d, settled)) (h : r.fatal = true) :
    r.settle f = (r.enact (.failure d), some (.exit (.int 1))) := by
  rw [settle_of_statement? hstatement, enact, report_of_fatal h]
  rfl

/-- A deed that reports a failure. -/
def Deed.reports : Deed → Bool
  | failure _ => true
  | line .. | step .. | warning _ => false

/-- The record that is kept of a deed, if it registers a step. -/
def Deed.step? : Deed → Option (String × String)
  | step rule text => some (rule, text)
  | line .. | warning _ | failure _ => none

/-- The lines that are printed for a deed. -/
def Deed.lines (verbose painted : Bool) (place : String) : Deed → List String
  | line .. => []
  | step rule text => if verbose then [Paint.boldIn painted .cyan rule ++ "  " ++ text] else []
  | warning d =>
    [Paint.bold painted place ++ Paint.boldIn painted .magenta "warning: " ++ d.highlighted painted]
  | failure d => failureLines painted place d

/-- A deed prints its lines. -/
theorem prints_enact (r : Reporter) (deed : Deed) :
    Prints (deed.lines r.verbose r.painted r.location) deed.reports r (r.enact deed) := by
  cases deed with
  | line path line number => exact (Prints.refl r).registerLine path line number
  | step rule text => exact prints_registerStep r rule text
  | warning d => exact prints_print r _
  | failure d =>
      rw [enact]
      cases h : r.fatal with
      | true =>
          rw [report_of_fatal h]
          exact prints_printFailure r d
      | false =>
          rw [report_of_not_fatal h]
          exact (prints_printFailure r d).forgetLines

theorem steps_enact (r : Reporter) (deed : Deed) :
    (r.enact deed).steps.toList = r.steps.toList ++ deed.step?.toList := by
  cases deed with
  | line path line number => exact (List.append_nil _).symm
  | warning d => exact (List.append_nil _).symm
  | step rule text =>
      rw [enact, steps_registerStep]
      exact Array.toList_push
  | failure d =>
      rw [enact, Deed.step?, Option.toList_none, List.append_nil]
      cases h : r.fatal with
      | true => rw [report_of_fatal h, steps_printFailure]
      | false => rw [report_of_not_fatal h, forgetLines, steps_printFailure]

theorem fatal_enactAll (r : Reporter) (done : List Deed) : (r.enactAll done).fatal = r.fatal := by
  induction done generalizing r with
  | nil => rfl
  | cons deed done ih => rw [enactAll_cons, ih, (prints_enact r deed).fatal]

/-- A failure was reported if one of the deeds reports one, or before. -/
theorem failed_enactAll (r : Reporter) (done : List Deed) :
    (r.enactAll done).failed = (r.failed || done.any Deed.reports) := by
  induction done generalizing r with
  | nil => exact (Bool.or_false _).symm
  | cons deed done ih =>
      rw [enactAll_cons, ih, (prints_enact r deed).failed, List.any_cons, Bool.or_assoc]

/-- The steps on record are those that were registered, in order. -/
theorem steps_enactAll (r : Reporter) (done : List Deed) :
    (r.enactAll done).steps.toList = r.steps.toList ++ done.filterMap Deed.step? := by
  induction done generalizing r with
  | nil => exact (List.append_nil _).symm
  | cons deed done ih =>
      rw [enactAll_cons, ih, steps_enact, List.append_assoc]
      cases deed <;> rfl

/-- Whether one of the deeds reports a failure. -/
theorem any_reports_iff {done : List Deed} :
    done.any Deed.reports = true ↔ ∃ d, .failure d ∈ done := by
  rw [List.any_eq_true]
  constructor
  · rintro ⟨deed, hdeed, hreports⟩
    cases deed with
    | failure d => exact ⟨d, hdeed⟩
    | line | step | warning => cases hreports
  · rintro ⟨d, hd⟩
    exact ⟨.failure d, hd, rfl⟩

/-! ## Lines that stand -/

/-- The path that a deed is about, if it is about one. -/
def Deed.path? : Deed → Option String
  | line path _ _ => some path
  | step .. | warning _ | failure _ => none

/-- The paths, each as often as it appeared. -/
def paths (done : List Deed) : List String := done.filterMap Deed.path?

/-- The deed puts something else in the place of a line at the path, or forgets it.  A report
forgets all lines unless the reporter is fatal. -/
def Deed.Overrides (fatal : Bool) (path : String) : Deed → Prop
  | line path' _ _ => path' = path
  | failure _ => fatal = false
  | step .. | warning _ => False

/-- The line was registered at the path, and no deed has overridden it since. -/
def Stands (fatal : Bool) (done : List Deed) (path line : String) (number : Option Int) : Prop :=
  ∃ before since, done = before ++ .line path (some line) number :: since ∧
    ∀ deed ∈ since, ¬ deed.Overrides fatal path

theorem Stands.mem_paths {fatal : Bool} {done : List Deed} {path line : String}
    {number : Option Int} (h : Stands fatal done path line number) : path ∈ paths done := by
  obtain ⟨before, since, rfl, -⟩ := h
  exact List.mem_filterMap.mpr ⟨.line path (some line) number, by simp, rfl⟩

/-- A line stands after one more deed if that has registered it, or if it stood and the deed
has not overridden it. -/
theorem stands_append_singleton {fatal : Bool} {done : List Deed} {deed : Deed}
    {path line : String} {number : Option Int} :
    Stands fatal (done ++ [deed]) path line number ↔
      deed = .line path (some line) number ∨
        Stands fatal done path line number ∧ ¬ deed.Overrides fatal path := by
  constructor
  · rintro ⟨before, since, hdone, hsince⟩
    rcases List.eq_nil_or_concat' since with rfl | ⟨since, last, rfl⟩
    · obtain ⟨-, hdeed⟩ := List.append_inj' hdone rfl
      exact .inl (List.singleton_inj.mp hdeed)
    · rw [← List.cons_append, ← List.append_assoc] at hdone
      obtain ⟨rfl, hlast⟩ := List.append_inj' hdone rfl
      obtain rfl := List.singleton_inj.mp hlast
      obtain ⟨hsince, hdeed⟩ := List.forall_mem_append.mp hsince
      exact .inr ⟨⟨before, since, rfl, hsince⟩, hdeed deed (.head _)⟩
  · rintro (rfl | ⟨⟨before, since, rfl, hsince⟩, hdeed⟩)
    · exact ⟨done, [], rfl, List.forall_mem_nil _⟩
    · refine ⟨before, since ++ [deed], by simp, ?_⟩
      exact List.forall_mem_append.mpr ⟨hsince, List.forall_mem_singleton.mpr hdeed⟩

/-! ## The table -/

/-- Placing an entry adds its path if it is not there. -/
theorem map_path_place (entry : Entry) (table : List Entry) :
    (place entry table).map (·.path) =
      if entry.path ∈ table.map (·.path) then table.map (·.path)
      else table.map (·.path) ++ [entry.path] := by
  induction table with
  | nil => rfl
  | cons e table ih =>
      rw [place]
      split_ifs with he hmem hmem
      · rw [List.map_cons, List.map_cons, he]
      · exact absurd (by rw [List.map_cons, he]; exact .head _) hmem
      · rw [List.map_cons, List.map_cons, ih, if_pos]
        exact (List.mem_cons.mp hmem).resolve_left (Ne.symm he)
      · have hrest : entry.path ∉ table.map (·.path) := fun h => hmem (.tail _ h)
        rw [List.map_cons, ih, if_neg hrest]
        rfl

/-- An entry that is placed leaves those of other paths alone. -/
theorem mem_place {entry e : Entry} {table : List Entry} (h : (table.map (·.path)).Nodup)
    (he : e ∈ place entry table) : e = entry ∨ e ∈ table ∧ e.path ≠ entry.path := by
  induction table with
  | nil => exact .inl (List.mem_singleton.mp he)
  | cons first table ih =>
      obtain ⟨hfirst, htable⟩ := List.nodup_cons.mp h
      rw [place] at he
      split_ifs at he with hpath
      · rcases List.mem_cons.mp he with rfl | hmem
        · exact .inl rfl
        · refine .inr ⟨.tail _ hmem, fun heq => hfirst ?_⟩
          exact List.mem_map.mpr ⟨e, hmem, heq.trans hpath.symm⟩
      · rcases List.mem_cons.mp he with rfl | hmem
        · exact .inr ⟨.head _, hpath⟩
        · exact (ih htable hmem).imp_right fun h => ⟨.tail _ h.1, h.2⟩

/-- The table has the paths in the order in which they appeared first, whatever is looked for
among them, and at each the line that stands there. -/
structure Tabled (fatal : Bool) (done : List Deed) (table : List Entry) : Prop where
  nodup : (table.map (·.path)).Nodup
  find? : ∀ wanted, (table.map (·.path)).find? wanted = (paths done).find? wanted
  stands : ∀ e ∈ table, ∀ line number,
    e.line = some line ∧ e.number = number ↔ Stands fatal done e.path line number

theorem mem_iff_of_find?_eq {l l' : List String}
    (h : ∀ wanted, l.find? wanted = l'.find? wanted) (path : String) : path ∈ l ↔ path ∈ l' := by
  have hfind : ∀ l : List String, path ∈ l ↔ (l.find? (· == path)).isSome = true := by
    intro l
    rw [List.find?_isSome]
    constructor
    · exact fun hmem => ⟨path, hmem, beq_self_eq_true path⟩
    · rintro ⟨x, hx, hpath⟩
      rw [beq_iff_eq] at hpath
      rwa [hpath] at hx
  rw [hfind, hfind, h]

theorem Tabled.mem_paths {fatal : Bool} {done : List Deed} {table : List Entry}
    (h : Tabled fatal done table) (path : String) :
    path ∈ table.map (·.path) ↔ path ∈ paths done :=
  mem_iff_of_find?_eq h.find? path

/-- Another appearance of a path does not change what is found first. -/
theorem find?_append_singleton_of_mem {l : List String} {path : String} (h : path ∈ l)
    (wanted : String → Bool) : (l ++ [path]).find? wanted = l.find? wanted := by
  rw [List.find?_append]
  cases hfind : l.find? wanted with
  | some found => rfl
  | none =>
      rw [Option.none_or, List.find?_cons_of_neg (List.find?_eq_none.mp hfind path h),
        List.find?_nil]

/-- The table after a line comes or goes. -/
theorem Tabled.place {fatal : Bool} {done : List Deed} {table : List Entry}
    (h : Tabled fatal done table) (path : String) (line : Option String)
    (number : Option Int) :
    Tabled fatal (done ++ [.line path line number]) (place ⟨path, line, number⟩ table) := by
  have hpaths : paths (done ++ [.line path line number]) = paths done ++ [path] :=
    List.filterMap_append
  have hmap := map_path_place ⟨path, line, number⟩ table
  dsimp only at hmap
  refine ⟨?_, fun wanted => ?_, fun e he line' number' => ?_⟩
  · rw [hmap]
    split_ifs with hmem
    · exact h.nodup
    · exact List.nodup_append.mpr ⟨h.nodup, List.nodup_singleton _, by
        rintro a ha b hb rfl
        exact hmem (by rwa [List.mem_singleton.mp hb] at ha)⟩
  · rw [hmap, hpaths]
    split_ifs with hmem
    · rw [find?_append_singleton_of_mem ((h.mem_paths path).mp hmem), h.find?]
    · rw [List.find?_append, List.find?_append, h.find?]
  · rw [stands_append_singleton]
    rcases mem_place h.nodup he with rfl | ⟨he, hne⟩
    · dsimp only
      constructor
      · rintro ⟨rfl, rfl⟩
        exact .inl rfl
      · rintro (heq | ⟨-, hnot⟩)
        · cases heq
          exact ⟨rfl, rfl⟩
        · exact absurd rfl hnot
    · rw [h.stands e he]
      constructor
      · exact fun hstands => .inr ⟨hstands, fun heq => hne heq.symm⟩
      · rintro (heq | ⟨hstands, -⟩)
        · cases heq
          exact absurd rfl hne
        · exact hstands

/-- The table after a deed that leaves it alone. -/
theorem Tabled.kept {fatal : Bool} {done : List Deed} {table : List Entry} {deed : Deed}
    (h : Tabled fatal done table) (hpath : deed.path? = none)
    (hkept : ∀ path, ¬ deed.Overrides fatal path) : Tabled fatal (done ++ [deed]) table := by
  have hpaths : paths (done ++ [deed]) = paths done := by
    rw [paths, List.filterMap_append, List.filterMap_cons_none hpath]
    exact List.append_nil _
  refine ⟨h.nodup, fun wanted => by rw [hpaths, h.find?], fun e he line number => ?_⟩
  rw [stands_append_singleton, h.stands e he]
  constructor
  · exact fun hstands => .inr ⟨hstands, hkept _⟩
  · rintro (rfl | ⟨hstands, -⟩)
    · cases hpath
    · exact hstands

/-- The table after a report by a reporter that is not fatal. -/
theorem Tabled.forgotten {done : List Deed} {table : List Entry} (h : Tabled false done table)
    (d : Diagnostic) :
    Tabled false (done ++ [.failure d]) (table.map fun e => ⟨e.path, none, none⟩) := by
  have hmap : (table.map fun e => (⟨e.path, none, none⟩ : Entry)).map (·.path) =
      table.map (·.path) := List.map_map
  have hpaths : paths (done ++ [.failure d]) = paths done := by
    rw [paths, List.filterMap_append]
    exact List.append_nil _
  refine ⟨by rw [hmap]; exact h.nodup, fun wanted => by rw [hmap, hpaths, h.find?],
    fun e he line number => ?_⟩
  obtain ⟨e, -, rfl⟩ := List.mem_map.mp he
  rw [stands_append_singleton]
  apply iff_of_false
  · rintro ⟨hline, -⟩
    cases hline
  · rintro (heq | ⟨-, hnot⟩)
    · cases heq
    · exact hnot rfl

theorem Tabled.enact {r : Reporter} {done : List Deed} (h : Tabled r.fatal done r.table)
    (deed : Deed) : Tabled r.fatal (done ++ [deed]) (r.enact deed).table := by
  cases deed with
  | line path line number => exact h.place path line number
  | step rule text =>
      rw [Reporter.enact, table_registerStep]
      exact h.kept rfl fun _ => id
  | warning d => exact h.kept rfl fun _ => id
  | failure d =>
      rw [Reporter.enact]
      cases hfatal : r.fatal with
      | true =>
          rw [hfatal] at h
          rw [report_of_fatal hfatal, table_printFailure]
          exact h.kept rfl fun _ => by simp [Deed.Overrides]
      | false =>
          rw [hfatal] at h
          rw [report_of_not_fatal hfatal, forgetLines, table_printFailure]
          exact h.forgotten d

/-- The table after a sequence of deeds. -/
theorem Tabled.enactAll {r : Reporter} {done : List Deed} (h : Tabled r.fatal done r.table)
    (more : List Deed) : Tabled r.fatal (done ++ more) (r.enactAll more).table := by
  induction more generalizing r done with
  | nil =>
      rw [List.append_nil]
      exact h
  | cons deed more ih =>
      have hnext := h.enact deed
      rw [← (prints_enact r deed).fatal] at hnext
      have hall := ih hnext
      rw [(prints_enact r deed).fatal, List.append_assoc] at hall
      exact hall

theorem tabled_nil (fatal : Bool) : Tabled fatal [] [] :=
  ⟨.nil, fun _ => rfl, List.forall_mem_nil _⟩

/-! ## The place that a report names -/

/-- A path and a number, as a report names them. -/
def placeName (path : String) (number : Option Int) : String :=
  s!"{path}:{(number.elim Value.null Value.int).plain}: "

/-- The place after these deeds: that of the first path at which a line stands, the paths
being taken as they appeared. -/
inductive Located (fatal : Bool) (done : List Deed) : String → Prop where
  | nowhere : (∀ path line number, ¬ Stands fatal done path line number) → Located fatal done ""
  | standing {before after : List String} {path line : String} {number : Option Int} :
      paths done = before ++ path :: after →
      (∀ path' ∈ before, ∀ line' number', ¬ Stands fatal done path' line' number') →
      Stands fatal done path line number → Located fatal done (placeName path number)

theorem location_of_find?_eq_none {r : Reporter} (h : r.table.find? (·.line.isSome) = none) :
    r.location = "" := by
  rw [location, h]

theorem location_of_find?_eq_some {r : Reporter} {e : Entry}
    (h : r.table.find? (·.line.isSome) = some e) : r.location = placeName e.path e.number := by
  rw [location, h, placeName]
  dsimp only
  cases e.number <;> rfl

/-- A report names the place that the deeds tell. -/
theorem Tabled.located {fatal : Bool} {r : Reporter} {done : List Deed}
    (h : Tabled fatal done r.table) : Located fatal done r.location := by
  classical
  let standing (path : String) : Bool := decide (∃ line number, Stands fatal done path line number)
  have hstanding : ∀ e ∈ r.table, e.line.isSome = standing e.path := by
    intro e he
    rw [Bool.eq_iff_iff, Option.isSome_iff_exists, decide_eq_true_iff]
    constructor
    · rintro ⟨line, hline⟩
      exact ⟨line, e.number, (h.stands e he line e.number).mp ⟨hline, rfl⟩⟩
    · rintro ⟨line, number, hstands⟩
      exact ⟨line, ((h.stands e he line number).mpr hstands).1⟩
  have hfind : (paths done).find? standing =
      (r.table.find? (·.line.isSome)).map (·.path) := by
    rw [← h.find?, List.find?_map, List.find?_congr hstanding]
    rfl
  cases hentry : r.table.find? (·.line.isSome) with
  | none =>
      rw [hentry, Option.map_none, List.find?_eq_none] at hfind
      rw [location_of_find?_eq_none hentry]
      refine .nowhere fun path line number hstands => hfind path hstands.mem_paths ?_
      exact decide_eq_true ⟨line, number, hstands⟩
  | some e =>
      rw [hentry, Option.map_some, List.find?_eq_some_iff_append] at hfind
      obtain ⟨-, before, after, hpaths, hbefore⟩ := hfind
      have hsome := List.find?_some hentry
      obtain ⟨line, hline⟩ := Option.isSome_iff_exists.mp hsome
      rw [location_of_find?_eq_some hentry]
      refine .standing hpaths (fun path hpath line number hstands => ?_)
        ((h.stands e (List.mem_of_find?_eq_some hentry) line e.number).mp ⟨hline, rfl⟩)
      have hnot := hbefore path hpath
      rw [Bool.not_eq_true', decide_eq_false_iff_not] at hnot
      exact hnot ⟨line, number, hstands⟩

/-! ## Accounts -/

/-- The state of the reporter tells what was done with it. -/
structure Accounts (fatal : Bool) (done : List Deed) (r : Reporter) : Prop where
  failed : r.failed = true ↔ ∃ d, .failure d ∈ done
  steps : r.steps.toList = done.filterMap Deed.step?
  located : Located fatal done r.location

/-- It does so whatever was done since the reporter was fresh. -/
theorem accounts_enactAll (fatal verbose painted : Bool) (done : List Deed) :
    Accounts fatal done ((fresh fatal verbose painted).enactAll done) where
  failed := by
    rw [failed_enactAll, ← any_reports_iff]
    rfl
  steps := steps_enactAll _ done
  located := by
    let r := fresh fatal verbose painted
    have hfresh : Tabled r.fatal [] r.table := tabled_nil fatal
    exact (hfresh.enactAll done).located

/-! ## What is printed -/

/-- These lines are printed for the deeds: each deed prints its own, with the place that the
deeds before it tell. -/
inductive Shown (fatal verbose painted : Bool) : List Deed → List String → Prop where
  | nothing : Shown fatal verbose painted [] []
  | append {done : List Deed} {lines : List String} {place : String} (deed : Deed) :
      Shown fatal verbose painted done lines → Located fatal done place →
      Shown fatal verbose painted (done ++ [deed]) (lines ++ deed.lines verbose painted place)

theorem exists_shown (fatal verbose painted : Bool) (done : List Deed) :
    ∃ lines, Shown fatal verbose painted done lines ∧
      Prints lines (done.any Deed.reports) (fresh fatal verbose painted)
        ((fresh fatal verbose painted).enactAll done) := by
  induction done using List.reverseRecOn with
  | nil => exact ⟨[], .nothing, .refl _⟩
  | append_singleton done deed ih =>
      obtain ⟨lines, hshown, hprints⟩ := ih
      have hplace := (accounts_enactAll fatal verbose painted done).located
      have hdeed := prints_enact ((fresh fatal verbose painted).enactAll done) deed
      rw [hprints.verbose, hprints.painted] at hdeed
      refine ⟨_, .append deed hshown hplace, ?_⟩
      rw [enactAll_append, List.any_append, List.any_cons, List.any_nil, Bool.or_false]
      exact hprints.trans hdeed

end BinaryLambda.Reporter
