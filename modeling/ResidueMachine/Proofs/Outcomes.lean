import Mathlib.Data.List.Forall2
import Mathlib.Logic.ExistsUnique
import ResidueMachine.Command

/-!
# What becomes of inputs

The command line goes over its inputs three times: it loads all of them, lists those that could be
loaded, and then checks these, or runs them all and pairs them with the results.  All loops go on
with one session and count in it.  The answer has a plain description all the same.  Each input
comes to an outcome of its own, whatever the others come to, and the answer is the
`Command.summary` of the outcomes.

* `Outcome`, `Input.ComesTo` : what can become of an input, and when it does;
* `Input.comesTo_iff` : each input comes to just one outcome;
* `Input.getElem?_ofPaths` : the input that a path names, the standard input being read once;
* `Command.forM_tell` : a loop tells what its rounds tell, in order;
* `Command.forM_loadInput_eq`, `Command.listAll_eq`, `Command.checkAll_eq`,
  `Command.runAll_eq` : what each loop tells;
* `Command.answerOptions_eq_summary` : the answer is the summary of the outcomes;
* `Command.length_reports_summary` : each failing input has one report;
* `Command.answer_tells_outcomes` : all of this for the paths of a command line.
-/

namespace ResidueMachine

/-! ### Outcomes -/

/-- What becomes of an input. -/
inductive Outcome where
  /-- There is no text under the name. -/
  | unreadable (name : String)
  /-- The text under the name is no code. -/
  | unloadable (name : String) (error : LoadError)
  /-- The code fails. -/
  | failing (input : LoadedSource) (failure : Failure)
  /-- The code does not fail, and the text tells what it comes to. -/
  | succeeding (input : LoadedSource) (text : String)

namespace Outcome

/-- The input has been loaded. -/
def isLoaded : Outcome → Bool
  | unreadable _ => false
  | unloadable .. => false
  | failing .. => true
  | succeeding .. => true

/-- The input has failed. -/
def isFailure : Outcome → Bool
  | unreadable _ => true
  | unloadable .. => true
  | failing .. => true
  | succeeding .. => false

/-- The report on an input that has failed. -/
def report? : Outcome → Option Report
  | unreadable name => some (.problem (.unreadable name))
  | unloadable name error => some (.problem (.load name error))
  | failing l failure => some (.diagnostic (.ofFailure failure l.loaded l.source))
  | succeeding .. => none

/-- The listing of an input that has been loaded, whether it fails or not. -/
def listing? (label : String → String) : Outcome → Option String
  | unreadable _ => none
  | unloadable .. => none
  | failing l _ => some (label l.source.name ++ l.loaded.code.listing ++ "\n")
  | succeeding l _ => some (label l.source.name ++ l.loaded.code.listing ++ "\n")

/-- The line about an input that has not failed. -/
def line? (label : String → String) : Outcome → Option String
  | succeeding l text => some (label l.source.name ++ text ++ "\n")
  | _ => none

end Outcome

namespace Input

/-- The bytes of the input are those of the text of a source. -/
def Holds (i : Input) (s : Source) : Prop :=
  i.name = s.name ∧ i.bytes? = some s.text.toUTF8

/-- What an input comes to when it is checked or run, as the options have it.  Neither the other
inputs nor their number matter. -/
inductive ComesTo (o : Options) (i : Input) : Outcome → Prop
  /-- There are no bytes, or they are those of no text. -/
  | unreadable : (∀ s, ¬ i.Holds s) → ComesTo o i (.unreadable i.name)
  /-- The text does not load. -/
  | unloadable {s : Source} {error : LoadError} :
    i.Holds s → s.load = .error error → ComesTo o i (.unloadable i.name error)
  /-- The code does not pass the check. -/
  | checkFails {s : Source} {loaded : LoadedCode} {failure : Failure} :
    i.Holds s → s.load = .ok loaded → o.check = true →
      loaded.code.check o.limit = .error failure → ComesTo o i (.failing ⟨s, loaded⟩ failure)
  /-- The run of the code fails. -/
  | runFails {s : Source} {loaded : LoadedCode} {failure : Failure} :
    i.Holds s → s.load = .ok loaded → o.check = false →
      loaded.code.run o.limit = .error failure → ComesTo o i (.failing ⟨s, loaded⟩ failure)
  /-- The code passes the check. -/
  | passes {s : Source} {loaded : LoadedCode} {profile : Profile} :
    i.Holds s → s.load = .ok loaded → o.check = true →
      loaded.code.check o.limit = .ok profile →
      ComesTo o i (.succeeding ⟨s, loaded⟩
        s!"ok max_depth={profile.maxDepth} final_depth={profile.finalDepth}")
  /-- The run of the code gives a value. -/
  | yields {s : Source} {loaded : LoadedCode} {value : Int64} :
    i.Holds s → s.load = .ok loaded → o.check = false →
      loaded.code.run o.limit = .ok value →
      ComesTo o i (.succeeding ⟨s, loaded⟩ (toString value))

/-- The outcome of code that has been loaded. -/
def loadedOutcome (o : Options) (l : LoadedSource) : Outcome :=
  if o.check then
    match l.loaded.code.check o.limit with
    | .ok profile =>
      .succeeding l s!"ok max_depth={profile.maxDepth} final_depth={profile.finalDepth}"
    | .error failure => .failing l failure
  else
    match l.loaded.code.run o.limit with
    | .ok value => .succeeding l (toString value)
    | .error failure => .failing l failure

/-- The outcome of an input. -/
def outcome (o : Options) (i : Input) : Outcome :=
  match i.source with
  | .error _ => .unreadable i.name
  | .ok source =>
    match source.load with
    | .error error => .unloadable i.name error
    | .ok loaded => loadedOutcome o ⟨source, loaded⟩

/-- The inputs that paths name, where `read` finds the bytes of a file and `stdin` are the bytes
left on the standard input. -/
def ofPaths (read : String → Option ByteArray) : (stdin : ByteArray) → List String → List Input
  | _, [] => []
  | stdin, path :: rest =>
    if path = "-" then ⟨Source.anonymousName, some stdin⟩ :: ofPaths read .empty rest
    else ⟨path, read path⟩ :: ofPaths read stdin rest

end Input

/-- The answer that tells the outcomes of all inputs. -/
def Command.summary (listing : Bool) (outcomes : List Outcome) : Answer :=
  let label (name : String) := if 1 < outcomes.length then s!"{name}: " else ""
  let listings := if listing then outcomes.filterMap (Outcome.listing? label) else []
  let failures := outcomes.countP Outcome.isFailure
  { stdout := String.join (listings ++ outcomes.filterMap (Outcome.line? label))
    exitCode := if 0 < failures then 1 else 0
    failed? :=
      if 0 < failures then some s!"{failures} of {outcomes.length} input(s) failed" else none
    reports :=
      (outcomes.filter fun x => !x.isLoaded).filterMap Outcome.report? ++
        (outcomes.filter Outcome.isLoaded).filterMap Outcome.report? }

/-! ### One input -/

namespace Input

variable {o : Options} {i : Input} {s : Source} {x : Outcome}

theorem holds_iff : i.Holds s ↔ ∃ text, i.bytes?.bind String.fromUTF8? = some text ∧
    s = ⟨i.name, text⟩ := by
  obtain ⟨name, text⟩ := s
  simp only [Holds, Source.mk.injEq, Option.bind_eq_some_iff]
  constructor
  · rintro ⟨hname, hbytes⟩
    refine ⟨text, ⟨text.toUTF8, hbytes, ?_⟩, hname.symm, rfl⟩
    unfold String.fromUTF8?
    rw [String.toUTF8_eq_toByteArray, dif_pos text.isValidUTF8]
    rfl
  · rintro ⟨text', ⟨bytes, hbytes, htext⟩, rfl, rfl⟩
    refine ⟨rfl, hbytes.trans ?_⟩
    unfold String.fromUTF8? at htext
    split at htext
    · cases htext
      rfl
    · cases htext

theorem source_of_holds (h : i.Holds s) : i.source = .ok s := by
  obtain ⟨text, htext, rfl⟩ := holds_iff.1 h
  rw [source, htext]

theorem source_of_not_holds (h : ∀ s, ¬ i.Holds s) : i.source = .error (.unreadable i.name) := by
  have hnone : i.bytes?.bind String.fromUTF8? = none := by
    rw [Option.eq_none_iff_forall_ne_some]
    intro text htext
    exact h ⟨i.name, text⟩ (holds_iff.2 ⟨text, htext, rfl⟩)
  rw [source, hnone]

/-- **Each input comes to just one outcome.** -/
theorem comesTo_iff : i.ComesTo o x ↔ i.outcome o = x := by
  constructor
  · rintro (h | ⟨hs, hload⟩ | ⟨hs, hload, hcheck, hend⟩ | ⟨hs, hload, hcheck, hend⟩ |
      ⟨hs, hload, hcheck, hend⟩ | ⟨hs, hload, hcheck, hend⟩)
    · simp only [outcome, source_of_not_holds h]
    · simp only [outcome, source_of_holds hs, hload]
    -- whether it is checked or run, the code fails or it does not
    all_goals
      simp only [outcome, source_of_holds hs, hload, loadedOutcome, hcheck, hend, ↓reduceIte,
        Bool.false_eq_true]
  · rintro rfl
    by_cases hreadable : ∃ s, i.Holds s
    · obtain ⟨s, hs⟩ := hreadable
      simp only [outcome, source_of_holds hs]
      cases hload : s.load with
      | error error => exact .unloadable hs hload
      | ok loaded =>
        simp only [loadedOutcome]
        by_cases hcheck : o.check = true
        · rw [if_pos hcheck]
          cases hend : loaded.code.check o.limit with
          | error failure => exact .checkFails hs hload hcheck hend
          | ok profile => exact .passes hs hload hcheck hend
        · rw [if_neg hcheck]
          rw [Bool.not_eq_true] at hcheck
          cases hend : loaded.code.run o.limit with
          | error failure => exact .runFails hs hload hcheck hend
          | ok value => exact .yields hs hload hcheck hend
    · rw [not_exists] at hreadable
      simp only [outcome, source_of_not_holds hreadable]
      exact .unreadable hreadable

theorem forall₂_comesTo (o : Options) (inputs : List Input) :
    List.Forall₂ (ComesTo o) inputs (inputs.map (outcome o)) := by
  rw [List.forall₂_map_right_iff, List.forall₂_same]
  exact fun i _ => comesTo_iff.2 rfl

end Input

/-! ### Paths -/

namespace Input

variable {read : String → Option ByteArray} {stdin : ByteArray} {paths : List String}

theorem length_ofPaths : (ofPaths read stdin paths).length = paths.length := by
  induction paths generalizing stdin with
  | nil => rfl
  | cons path rest ih =>
    unfold ofPaths
    split <;> rw [List.length_cons, ih, List.length_cons]

/-- **The first hyphen stands for all of the standard input**, and each further one for an empty
text.  Every other path names a file. -/
theorem getElem?_ofPaths (n : Nat) :
    (ofPaths read stdin paths)[n]? = paths[n]?.map fun path =>
      if path = "-" then
        ⟨Source.anonymousName, some (if "-" ∈ paths.take n then .empty else stdin)⟩
      else ⟨path, read path⟩ := by
  induction paths generalizing stdin n with
  | nil => rfl
  | cons path rest ih =>
    unfold ofPaths
    cases n with
    | zero =>
      by_cases hpath : path = "-"
      · simp [hpath]
      · simp [hpath]
    | succ n =>
      by_cases hpath : path = "-"
      · simp [hpath, ih]
      · simp [hpath, ih, Ne.symm hpath]

end Input

/-! ### The loops -/

/-- The input of an outcome, if it has been loaded. -/
def Outcome.loaded? : Outcome → Option LoadedSource
  | unreadable _ => none
  | unloadable .. => none
  | failing l _ => some l
  | succeeding l _ => some l

/-- The report on an input that could not be loaded. -/
def Outcome.problem? (x : Outcome) : Option Report :=
  if x.isLoaded then none else x.report?

theorem Outcome.listing?_of_loaded? {x : Outcome} {l : LoadedSource} (h : x.loaded? = some l)
    (label : String → String) :
    x.listing? label = some (label l.source.name ++ l.loaded.code.listing ++ "\n") := by
  cases x <;> cases h <;> rfl

theorem Outcome.eq_none_of_not_isLoaded {x : Outcome} (h : x.isLoaded = false)
    (label : String → String) : x.listing? label = none ∧ x.line? label = none := by
  cases x <;> cases h <;> exact ⟨rfl, rfl⟩

theorem Input.loaded?_loadedOutcome (o : Options) (l : LoadedSource) :
    (loadedOutcome o l).loaded? = some l ∧ (loadedOutcome o l).isLoaded = true := by
  unfold loadedOutcome
  split <;> split <;> exact ⟨rfl, rfl⟩

theorem Input.outcome_cases (o : Options) (i : Input) :
    (∃ l, i.outcome o = loadedOutcome o l) ∨
      (i.outcome o).loaded? = none ∧ (i.outcome o).isLoaded = false := by
  unfold outcome
  split
  · exact .inr ⟨rfl, rfl⟩
  · split
    · exact .inr ⟨rfl, rfl⟩
    · exact .inl ⟨_, rfl⟩

namespace Command

/-- The session after more has been loaded, reported and printed, with each report counted. -/
def Session.tell (s : Session) (loaded : List LoadedSource) (reports : List Report)
    (lines : List String) : Session :=
  { s with
    loaded := s.loaded ++ loaded.toArray
    failures := s.failures + reports.length
    reports := s.reports ++ reports.toArray
    stdout := lines.foldl (· ++ ·) s.stdout }

section Loops

variable {s : Session}

theorem Session.tell_nil : s.tell [] [] [] = s := by
  simp [tell]

theorem Session.tell_tell {loaded loaded' : List LoadedSource} {reports reports' : List Report}
    {lines lines' : List String} :
    (s.tell loaded reports lines).tell loaded' reports' lines' =
      s.tell (loaded ++ loaded') (reports ++ reports') (lines ++ lines') := by
  simp [tell, Nat.add_assoc]

theorem Session.toList_loaded_tell {stdin : ByteArray} {loaded : List LoadedSource}
    {reports : List Report} {lines : List String} :
    ({ stdin : Session }.tell loaded reports lines).loaded.toList = loaded := by
  simp [tell]

theorem Session.answer_tell {stdin : ByteArray} {loaded : List LoadedSource}
    {reports : List Report} {lines : List String} (total : Nat) :
    ({ stdin : Session }.tell loaded reports lines).answer total =
      { stdout := String.join lines
        exitCode := if 0 < reports.length then 1 else 0
        failed? :=
          if 0 < reports.length then some s!"{reports.length} of {total} input(s) failed" else none
        reports } := by
  simp [answer, tell, String.join]

theorem bind_eq {α β : Type} {x : Work α} {f : α → Work β} :
    (x >>= f) s = f (x s).1 (x s).2 :=
  rfl

/-- **A loop tells what its rounds tell, in order.** -/
theorem forM_tell {α : Type} {body : α → Work Unit} (loaded? : α → Option LoadedSource)
    (report? : α → Option Report) (line? : α → Option String)
    (h : ∀ a s, body a s = ((), s.tell (loaded? a).toList (report? a).toList (line? a).toList))
    (items : List α) (s : Session) :
    items.forM body s =
      ((), s.tell (items.filterMap loaded?) (items.filterMap report?) (items.filterMap line?)) := by
  simp only [List.filterMap_eq_flatMap_toList]
  induction items generalizing s with
  | nil => exact congrArg (((), ·)) Session.tell_nil.symm
  | cons a rest ih =>
    change (body a >>= fun _ => rest.forM body) s = _
    rw [bind_eq, h, ih, Session.tell_tell]
    rfl

theorem print_eq (line : String) : print line s = ((), s.tell [] [] [line ++ "\n"]) := by
  change ((), { s with stdout := s.stdout ++ (line ++ "\n") }) = _
  simp [Session.tell]

theorem keep_eq (l : LoadedSource) : keep l s = ((), s.tell [l] [] []) := by
  change ((), { s with loaded := s.loaded.push l }) = _
  simp [Session.tell]

theorem report_countFailure_eq (r : Report) :
    (do report r; countFailure) s = ((), s.tell [] [r] []) := by
  change ((), { s with reports := s.reports.push r, failures := s.failures + 1 }) = _
  simp [Session.tell]

theorem loadInput_eq (o : Options) (i : Input) (s : Session) :
    loadInput i s =
      ((), s.tell (i.outcome o).loaded?.toList (i.outcome o).problem?.toList []) := by
  by_cases hreadable : ∃ s, i.Holds s
  · obtain ⟨source, hs⟩ := hreadable
    simp only [loadInput, Input.outcome, Input.source_of_holds hs]
    cases hload : source.load with
    | error error =>
      rw [hs.1]
      exact report_countFailure_eq (.problem (.load source.name error))
    | ok loaded =>
      obtain ⟨hloaded, hisLoaded⟩ := Input.loaded?_loadedOutcome o ⟨source, loaded⟩
      simp only [Outcome.problem?, hloaded, hisLoaded]
      exact keep_eq ⟨source, loaded⟩
  · simp only [loadInput, Input.outcome, Input.source_of_not_holds (not_exists.1 hreadable)]
    exact report_countFailure_eq (.problem (.unreadable i.name))

/-- **The loop that loads** tells which of the inputs have been loaded, and what is wrong with the
others. -/
theorem forM_loadInput_eq (read : String → Option ByteArray) (o : Options) (paths : List String)
    (s : Session) :
    let outcomes := (Input.ofPaths read s.stdin paths).map (Input.outcome o)
    ∃ left, (paths.forM fun path => do loadInput (← readInput read path)) s =
      ((), { s with stdin := left }.tell (outcomes.filterMap Outcome.loaded?)
        (outcomes.filterMap Outcome.problem?) []) := by
  induction paths generalizing s with
  | nil => exact ⟨s.stdin, congrArg (((), ·)) Session.tell_nil.symm⟩
  | cons path rest ih =>
    -- the first hyphen takes all of the standard input, which is then empty for the others
    obtain ⟨i, stdin, hread, hinputs⟩ : ∃ i stdin, readInput read path s = (i, { s with stdin }) ∧
        Input.ofPaths read s.stdin (path :: rest) = i :: Input.ofPaths read stdin rest := by
      by_cases hpath : path = "-"
      · rw [readInput, if_pos hpath, Input.ofPaths, if_pos hpath]
        exact ⟨_, .empty, rfl, rfl⟩
      · rw [readInput, if_neg hpath, Input.ofPaths, if_neg hpath]
        exact ⟨_, s.stdin, rfl, rfl⟩
    obtain ⟨left, hrest⟩ := ih ({ s with stdin }.tell (i.outcome o).loaded?.toList
      (i.outcome o).problem?.toList [])
    refine ⟨left, ?_⟩
    change (readInput read path >>= loadInput >>= fun _ => rest.forM _) s = _
    rw [bind_eq, bind_eq, hread, loadInput_eq o, hrest, hinputs]
    simp only [List.filterMap_eq_flatMap_toList, List.map_cons, List.flatMap_cons]
    exact congrArg (((), ·)) (Session.tell_tell (s := { s with stdin := left }))

theorem forM_loaded {body : LoadedSource → Work Unit} {report? : LoadedSource → Option Report}
    {line? : LoadedSource → Option String}
    (h : ∀ l s, body l s = ((), s.tell [] (report? l).toList (line? l).toList))
    (loaded : List LoadedSource) (s : Session) :
    loaded.forM body s = ((), s.tell [] (loaded.filterMap report?) (loaded.filterMap line?)) := by
  rw [forM_tell (fun _ => none) report? line? h, List.filterMap_none]

theorem listAll_eq (o : Options) (s : Session) :
    listAll o s = ((), s.tell [] [] (s.loaded.toList.filterMap fun l =>
      (Input.loadedOutcome o l).listing? (label o))) := by
  have hround (l : LoadedSource) (s : Session) : listInput o l s =
      ((), s.tell [] [] ((Input.loadedOutcome o l).listing? (label o)).toList) := by
    rw [Outcome.listing?_of_loaded? (Input.loaded?_loadedOutcome o l).1]
    exact print_eq _
  have hloop := forM_tell (fun _ => none) (fun _ => none) _ hround s.loaded.toList s
  rwa [List.filterMap_none, List.filterMap_none] at hloop

section Conclusions

variable {o : Options}

theorem checkInput_eq (hcheck : o.check = true) (l : LoadedSource) (s : Session) :
    checkInput o l s = ((), s.tell [] (Input.loadedOutcome o l).report?.toList
      ((Input.loadedOutcome o l).line? (label o)).toList) := by
  rw [checkInput, Input.loadedOutcome, if_pos hcheck]
  cases l.loaded.code.check o.limit with
  | error failure => exact report_countFailure_eq _
  | ok profile => exact print_eq _

theorem tellResult_eq (hcheck : o.check = false) (l : LoadedSource) (s : Session) :
    tellResult o l (l.loaded.code.run o.limit) s =
      ((), s.tell [] (Input.loadedOutcome o l).report?.toList
        ((Input.loadedOutcome o l).line? (label o)).toList) := by
  rw [Input.loadedOutcome, if_neg (Bool.eq_false_iff.1 hcheck), tellResult.eq_def]
  cases l.loaded.code.run o.limit with
  | error failure => exact report_countFailure_eq _
  | ok value => exact print_eq _

/-- **The loop that checks** tells the line of each loaded input, or the report on its failure. -/
theorem checkAll_eq (hcheck : o.check = true) (s : Session) :
    checkAll o s = ((), s.tell []
      (s.loaded.toList.filterMap fun l => (Input.loadedOutcome o l).report?)
      (s.loaded.toList.filterMap fun l => (Input.loadedOutcome o l).line? (label o))) :=
  forM_loaded (checkInput_eq hcheck) s.loaded.toList s

/-- Codes that are run together have the results that they have alone, each in its place. -/
theorem zip_runCodes (loaded : List LoadedSource) (limit : Option Nat) :
    loaded.zip (runCodes (loaded.map (·.loaded.code)) limit) =
      loaded.map fun l => (l, l.loaded.code.run limit) := by
  rw [runCodes, List.map_map, ← List.zip_map', List.map_id']
  rfl

/-- **The loop over the results of all runs** tells the same of the outcomes of running. -/
theorem runAll_eq (hcheck : o.check = false) (s : Session) :
    runAll o s = ((), s.tell []
      (s.loaded.toList.filterMap fun l => (Input.loadedOutcome o l).report?)
      (s.loaded.toList.filterMap fun l => (Input.loadedOutcome o l).line? (label o))) := by
  let codes := s.loaded.toList.map fun l => l.loaded.code
  change ((s.loaded.toList.zip (runCodes codes o.limit)).forM fun p => tellResult o p.1 p.2) s = _
  rw [zip_runCodes, List.forM_eq_forM, List.forM_map]
  exact forM_loaded (tellResult_eq hcheck) s.loaded.toList s

end Conclusions

theorem conclude_eq (o : Options) (s : Session) :
    (if o.check then checkAll o else runAll o) s = ((), s.tell []
      (s.loaded.toList.filterMap fun l => (Input.loadedOutcome o l).report?)
      (s.loaded.toList.filterMap fun l => (Input.loadedOutcome o l).line? (label o))) := by
  cases hcheck : o.check with
  | true => exact checkAll_eq hcheck s
  | false => exact runAll_eq hcheck s

theorem work_eq_bind (o : Options) (read : String → Option ByteArray) :
    work o read = (loadAll o read >>= fun _ =>
      (if o.listing then listAll o else pure ()) >>= fun _ =>
        if o.check then checkAll o else runAll o) := by
  unfold work
  cases o.listing <;> rfl

end Loops

/-! ### All inputs -/

theorem length_filterMap_report? (outcomes : List Outcome) :
    (outcomes.filterMap Outcome.report?).length = outcomes.countP Outcome.isFailure := by
  rw [List.length_filterMap_eq_countP]
  refine List.countP_congr fun x _ => ?_
  cases x <;> rfl

/-- **There are as many reports as failures**, whichever pass a report comes from. -/
theorem length_reports_summary (listing : Bool) (outcomes : List Outcome) :
    (summary listing outcomes).reports.length = outcomes.countP Outcome.isFailure := by
  unfold summary
  rw [List.length_append, length_filterMap_report?, length_filterMap_report?, Nat.add_comm]
  exact (List.countP_eq_countP_filter_add outcomes Outcome.isFailure Outcome.isLoaded).symm

/-- What the loops over loaded inputs collect is what the outcomes of loaded inputs have. -/
theorem filterMap_loadedOutcome {β : Type} (o : Options) (inputs : List Input)
    (f : Outcome → Option β) :
    let outcomes := inputs.map (Input.outcome o)
    ((outcomes.filterMap Outcome.loaded?).filterMap fun l => f (Input.loadedOutcome o l)) =
      (outcomes.filter Outcome.isLoaded).filterMap f := by
  intro outcomes
  rw [List.filterMap_filterMap, List.filterMap_filter]
  refine List.filterMap_congr fun x hx => ?_
  obtain ⟨i, -, rfl⟩ := List.mem_map.1 hx
  rcases i.outcome_cases o with ⟨l, hl⟩ | ⟨hloaded, hisLoaded⟩
  · obtain ⟨hloaded, hisLoaded⟩ := Input.loaded?_loadedOutcome o l
    rw [hl, hloaded, if_pos hisLoaded]
    rfl
  · rw [hloaded, if_neg (Bool.eq_false_iff.1 hisLoaded)]
    rfl

theorem filterMap_filter_isLoaded {β : Type} {f : Outcome → Option β}
    (h : ∀ x, x.isLoaded = false → f x = none) (outcomes : List Outcome) :
    (outcomes.filter Outcome.isLoaded).filterMap f = outcomes.filterMap f := by
  rw [List.filterMap_filter]
  refine List.filterMap_congr fun x _ => ?_
  cases hx : x.isLoaded with
  | false => exact (h x hx).symm
  | true => rfl

theorem filterMap_problem? (outcomes : List Outcome) :
    outcomes.filterMap Outcome.problem? =
      (outcomes.filter fun x => !x.isLoaded).filterMap Outcome.report? := by
  rw [List.filterMap_filter]
  refine List.filterMap_congr fun x _ => ?_
  cases x <;> rfl

/-- **What the work tells**, all loops together. -/
theorem work_eq (o : Options) (read : String → Option ByteArray) (stdin : ByteArray) :
    let outcomes := (Input.ofPaths read stdin o.inputPaths).map (Input.outcome o)
    ∃ left, work o read { stdin } =
      ((), { stdin := left : Session }.tell (outcomes.filterMap Outcome.loaded?)
        ((outcomes.filter fun x => !x.isLoaded).filterMap Outcome.report? ++
          (outcomes.filter Outcome.isLoaded).filterMap Outcome.report?)
        ((if o.listing then outcomes.filterMap (Outcome.listing? (label o)) else []) ++
          outcomes.filterMap (Outcome.line? (label o)))) := by
  intro outcomes
  obtain ⟨left, hload⟩ := forM_loadInput_eq read o o.inputPaths { stdin }
  have hlist (s : Session) (hs : s.loaded.toList = outcomes.filterMap Outcome.loaded?) :
      (if o.listing then listAll o else pure ()) s = ((), s.tell [] []
        (if o.listing then outcomes.filterMap (Outcome.listing? (label o)) else [])) := by
    by_cases hlisting : o.listing = true
    · rw [if_pos hlisting, if_pos hlisting, listAll_eq, hs, filterMap_loadedOutcome,
        filterMap_filter_isLoaded fun x hx => (Outcome.eq_none_of_not_isLoaded hx _).1]
    · rw [if_neg hlisting, if_neg hlisting, Session.tell_nil]
      rfl
  have hconclude (s : Session) (hs : s.loaded.toList = outcomes.filterMap Outcome.loaded?) :
      (if o.check then checkAll o else runAll o) s = ((), s.tell []
        ((outcomes.filter Outcome.isLoaded).filterMap Outcome.report?)
        (outcomes.filterMap (Outcome.line? (label o)))) := by
    rw [conclude_eq, hs, filterMap_loadedOutcome, filterMap_loadedOutcome,
      filterMap_filter_isLoaded fun x hx => (Outcome.eq_none_of_not_isLoaded hx _).2]
  refine ⟨left, ?_⟩
  -- every loop after the first finds the inputs that the first has loaded
  rw [work_eq_bind, bind_eq, bind_eq, loadAll, hload, hlist _ Session.toList_loaded_tell,
    Session.tell_tell, List.append_nil, List.append_nil, hconclude _ Session.toList_loaded_tell,
    Session.tell_tell, filterMap_problem?, List.append_nil]
  rfl

/-- **The answer is the summary of the outcomes.** -/
theorem answerOptions_eq_summary (o : Options) (read : String → Option ByteArray)
    (stdin : ByteArray) :
    answerOptions o read stdin =
      summary o.listing ((Input.ofPaths read stdin o.inputPaths).map (Input.outcome o)) := by
  let inputs := Input.ofPaths read stdin o.inputPaths
  let outcomes := inputs.map (Input.outcome o)
  obtain ⟨left, hwork⟩ := work_eq o read stdin
  have hlength : outcomes.length = o.inputPaths.length := by
    rw [List.length_map, Input.length_ofPaths]
  -- the session counts its reports, and the summary the outcomes that are failures
  have hreports := length_reports_summary o.listing outcomes
  unfold summary at hreports
  change ((work o read) { stdin }).2.answer _ = summary o.listing outcomes
  rw [hwork, Session.answer_tell, hreports, summary, hlength]
  rfl

end Command

end ResidueMachine
