import ResidueMachine.Proofs.Checking
import ResidueMachine.Proofs.Loading
import ResidueMachine.Proofs.Outcomes

/-!
# Checking instead of running

The command line takes one way through its loaded inputs when it checks them and another when it
runs them.  Which inputs fail, and how, is the same on both ways, and so are all reports, the count
of failures and the exit code: what changes is the line about an input that does not fail.

* `Outcome.Matches` : an outcome of running and one of checking that differ in the line only;
* `Input.outcome_matches` : an input comes to outcomes that match;
* `Command.summary_of_matches` : matching outcomes have summaries that differ in lines only;
* `Command.check_changes_lines_only` : what adding a check to the options changes.

A run without a limit has room for as many values as there are words of 64 bits, less one.  An input
with fewer bytes than that has fewer instructions, and cannot fill it.
-/

namespace ResidueMachine

/-- What an input comes to when it is run, and what it comes to when it is checked. -/
inductive Outcome.Matches (limit : Option Nat) : Outcome → Outcome → Prop
  /-- The input fails, and does so in the same way. -/
  | failure {x : Outcome} : x.isFailure = true → Matches limit x x
  /-- The depths stand in the place of the value. -/
  | line {l : LoadedSource} {value : Int64} {profile : Profile} :
    l.loaded.code.run limit = .ok value → l.loaded.code.check limit = .ok profile →
      profile.Within limit →
      Matches limit (.succeeding l (toString value))
        (.succeeding l s!"ok max_depth={profile.maxDepth} final_depth={profile.finalDepth}")

theorem Outcome.Matches.same {limit : Option Nat} {x y : Outcome} (h : x.Matches limit y) :
    x.isLoaded = y.isLoaded ∧ x.report? = y.report? ∧
      ∀ label, x.listing? label = y.listing? label := by
  cases h with
  | failure _ => exact ⟨rfl, rfl, fun _ => rfl⟩
  | line _ _ _ => exact ⟨rfl, rfl, fun _ => rfl⟩

/-! ### One input -/

namespace Input

variable {o : Options} {i : Input}

theorem Holds.length_program_lt {s : Source} {loaded : LoadedCode} (h : i.Holds s)
    (hsize : ∀ bytes ∈ i.bytes?, bytes.size < UInt64.size) (hload : s.load = .ok loaded) :
    loaded.code.program.length < UInt64.size := by
  have hbytes : s.text.utf8ByteSize < UInt64.size := by
    have := hsize _ h.2
    rwa [String.toUTF8_eq_toByteArray, String.size_toByteArray] at this
  exact Nat.lt_of_le_of_lt (length_program_le_of_load_eq_ok hload) hbytes

/-- **Checking an input and running it come to matching outcomes.** -/
theorem outcome_matches (hsize : ∀ bytes ∈ i.bytes?, bytes.size < UInt64.size) :
    (i.outcome { o with check := false }).Matches o.limit (i.outcome { o with check := true }) := by
  by_cases hreadable : ∃ s, i.Holds s
  · obtain ⟨s, hs⟩ := hreadable
    cases hload : s.load with
    | error error =>
      have houtcome (o : Options) : i.outcome o = .unloadable i.name error :=
        comesTo_iff.1 (.unloadable hs hload)
      rw [houtcome, houtcome]
      exact .failure rfl
    | ok loaded =>
      -- Only here do the two ways part, and the code itself answers the same on both.
      rcases (loaded.code.agree_within o.limit (hs.length_program_lt hsize hload)).cases with
        ⟨failure, hcheck, hrun⟩ | ⟨profile, value, hcheck, hrun, hwithin⟩
      · have hrunOutcome : i.outcome { o with check := false } = .failing ⟨s, loaded⟩ failure :=
          comesTo_iff.1 (.runFails hs hload rfl hrun)
        have hcheckOutcome : i.outcome { o with check := true } = .failing ⟨s, loaded⟩ failure :=
          comesTo_iff.1 (.checkFails hs hload rfl hcheck)
        rw [hrunOutcome, hcheckOutcome]
        exact .failure rfl
      · have hrunOutcome : i.outcome { o with check := false } =
            .succeeding ⟨s, loaded⟩ (toString value) :=
          comesTo_iff.1 (.yields hs hload rfl hrun)
        have hcheckOutcome : i.outcome { o with check := true } = .succeeding ⟨s, loaded⟩
            s!"ok max_depth={profile.maxDepth} final_depth={profile.finalDepth}" :=
          comesTo_iff.1 (.passes hs hload rfl hcheck)
        rw [hrunOutcome, hcheckOutcome]
        exact .line hrun hcheck hwithin
  · have houtcome (o : Options) : i.outcome o = .unreadable i.name :=
      comesTo_iff.1 (.unreadable (not_exists.1 hreadable))
    rw [houtcome, houtcome]
    exact .failure rfl

theorem size_lt_of_mem_ofPaths {read : String → Option ByteArray} {stdin : ByteArray}
    {paths : List String} (hread : ∀ path, ∀ bytes ∈ read path, bytes.size < UInt64.size)
    (hstdin : stdin.size < UInt64.size) (hi : i ∈ ofPaths read stdin paths) :
    ∀ bytes ∈ i.bytes?, bytes.size < UInt64.size := by
  obtain ⟨n, hn⟩ := List.mem_iff_getElem?.1 hi
  rw [getElem?_ofPaths, Option.map_eq_some_iff] at hn
  obtain ⟨path, -, rfl⟩ := hn
  -- a hyphen has all bytes of the standard input or none
  by_cases hpath : path = "-"
  · rw [if_pos hpath]
    rintro bytes ⟨rfl⟩
    by_cases hfirst : "-" ∈ paths.take n
    · rw [if_pos hfirst]
      decide
    · rwa [if_neg hfirst]
  · rw [if_neg hpath]
    exact hread path

end Input

/-! ### All inputs -/

namespace Command

variable {limit : Option Nat} {runs checks : List Outcome}

theorem filterMap_eq_of_matches {α : Type} {f : Outcome → Option α}
    (hf : ∀ x y, Outcome.Matches limit x y → f x = f y)
    (h : List.Forall₂ (Outcome.Matches limit) runs checks) :
    runs.filterMap f = checks.filterMap f := by
  induction h with
  | nil => rfl
  | cons hxy _ ih => rw [List.filterMap_cons, List.filterMap_cons, hf _ _ hxy, ih]

/-- **Matching outcomes have summaries that differ in lines only.** -/
theorem summary_of_matches (listing : Bool)
    (h : List.Forall₂ (Outcome.Matches limit) runs checks) :
    (summary listing runs).exitCode = (summary listing checks).exitCode ∧
      (summary listing runs).failed? = (summary listing checks).failed? ∧
      (summary listing runs).reports = (summary listing checks).reports ∧
      ∀ label, runs.filterMap (Outcome.listing? label) =
        checks.filterMap (Outcome.listing? label) := by
  have hreport : runs.filterMap Outcome.report? = checks.filterMap Outcome.report? :=
    filterMap_eq_of_matches (fun x y hxy => hxy.same.2.1) h
  have hfailures : runs.countP Outcome.isFailure = checks.countP Outcome.isFailure := by
    rw [← length_filterMap_report?, hreport, length_filterMap_report?]
  refine ⟨?_, ?_, ?_, fun label => ?_⟩
  · simp only [summary, hfailures]
  · simp only [summary, hfailures, h.length_eq]
  · simp only [summary, List.filterMap_filter]
    congr 1
    · exact filterMap_eq_of_matches (fun x y hxy => by rw [hxy.same.1, hxy.same.2.1]) h
    · exact filterMap_eq_of_matches (fun x y hxy => by rw [hxy.same.1, hxy.same.2.1]) h
  · exact filterMap_eq_of_matches (fun x y hxy => hxy.same.2.2 label) h

/-- **A check changes lines only.**  With the check and without it the exit code, the words on how
many inputs failed and the reports are the same.  Behind them are outcomes of the same inputs in
the same order, and they match: an input that fails does so in the same way, and one that does not
has a line with the depths in the place of its value. -/
theorem check_changes_lines_only (o : Options) (read : String → Option ByteArray)
    (stdin : ByteArray) (hread : ∀ path, ∀ bytes ∈ read path, bytes.size < UInt64.size)
    (hstdin : stdin.size < UInt64.size) :
    let inputs := Input.ofPaths read stdin o.inputPaths
    let run := answerOptions { o with check := false } read stdin
    let check := answerOptions { o with check := true } read stdin
    run.exitCode = check.exitCode ∧ run.failed? = check.failed? ∧ run.reports = check.reports ∧
      ∃ runs checks : List Outcome,
        List.Forall₂ (Input.ComesTo { o with check := false }) inputs runs ∧
        List.Forall₂ (Input.ComesTo { o with check := true }) inputs checks ∧
        List.Forall₂ (Outcome.Matches o.limit) runs checks ∧
        (∀ label, runs.filterMap (Outcome.listing? label) =
          checks.filterMap (Outcome.listing? label)) ∧
        run = summary o.listing runs ∧ check = summary o.listing checks := by
  intro inputs run check
  let runs := inputs.map (Input.outcome { o with check := false })
  let checks := inputs.map (Input.outcome { o with check := true })
  have hmatches : List.Forall₂ (Outcome.Matches o.limit) runs checks := by
    rw [List.forall₂_map_left_iff, List.forall₂_map_right_iff, List.forall₂_same]
    intro i hi
    exact Input.outcome_matches (Input.size_lt_of_mem_ofPaths hread hstdin hi)
  have hrun : run = summary o.listing runs := answerOptions_eq_summary _ read stdin
  have hcheck : check = summary o.listing checks := answerOptions_eq_summary _ read stdin
  obtain ⟨hexitCode, hfailed, hreports, hlistings⟩ := summary_of_matches o.listing hmatches
  rw [hrun, hcheck]
  exact ⟨hexitCode, hfailed, hreports, runs, checks, Input.forall₂_comesTo _ inputs,
    Input.forall₂_comesTo _ inputs, hmatches, hlistings, rfl, rfl⟩

/-- With the limit `1`, code that loads once, code that loads twice, and a file that is not there:
two of the three fail, with a check and without it. -/
theorem check_changes_lines_only_second_load :
    let o : Options := { limit := some 1, paths := ["-", "twice", "nowhere"] }
    let read (path : String) := if path = "twice" then some "7 1 2 3 1 1 1 1".toUTF8 else none
    let stdin := "7 1 1 3 1 1".toUTF8
    let run := answerOptions { o with check := false } read stdin
    let check := answerOptions { o with check := true } read stdin
    (∀ path, ∀ bytes ∈ read path, bytes.size < UInt64.size) ∧ stdin.size < UInt64.size ∧
      run.exitCode = 1 ∧ check.exitCode = 1 ∧
      run.reports.map Report.code = ["modstack::io", "E004"] ∧
      check.reports.map Report.code = ["modstack::io", "E004"] := by
  intro o read stdin run check
  have hread : ∀ path, ∀ bytes ∈ read path, bytes.size < UInt64.size := by
    intro path bytes hbytes
    by_cases hpath : path = "twice"
    · simp only [read, if_pos hpath, Option.mem_some_iff] at hbytes
      subst hbytes
      decide +kernel
    · simp only [read, if_neg hpath, Option.not_mem_none] at hbytes
  have hstdin : stdin.size < UInt64.size := by decide +kernel
  obtain ⟨hexitCode, -, hreports, -⟩ := check_changes_lines_only o read stdin hread hstdin
  have hone : run.exitCode = 1 := by decide +kernel
  have hcodes : run.reports.map Report.code = ["modstack::io", "E004"] := by decide +kernel
  refine ⟨hread, hstdin, hone, hexitCode ▸ hone, hcodes, ?_⟩
  rw [← hcodes, ← hreports]

end Command

end ResidueMachine
