import SchemaLang.Workspace

/-!
# Histories

What the steps of a workspace leave behind, and what of it matters.

* `Evaluator.Alike` and `Workspace.Alike` ignore all that runs leave behind in evaluators. Workspaces that are alike
  answer a step in the same way and stay alike (`Workspace.Alike.step`), and so they answer all steps in the same way
  (`Workspace.Alike.run`).
* The files change by the steps that lay them out only (`Workspace.files_run`), and what is kept of an evaluator changes
  by its own runs only (`Workspace.exists_lookup_run`).
* Main result: `Workspace.run_leaves_no_trace`.
-/

namespace SchemaLang

/-! ## Evaluators without their past -/

namespace Evaluator

variable {e f : Evaluator} {disk : Disk}

/-- Two evaluators for the same input and the same namespace, whatever their runs have left behind. -/
def Alike (e f : Evaluator) : Prop := e.input = f.input ∧ e.ns = f.ns

/-- A run keeps an evaluator like what it was. -/
theorem alike_evaluate (e : Evaluator) (disk : Disk) : (e.evaluate disk).2.Alike e :=
  ⟨input_evaluate disk e, ns_evaluate disk e⟩

theorem Alike.symm (h : e.Alike f) : f.Alike e := ⟨h.1.symm, h.2.symm⟩

theorem Alike.trans {g : Evaluator} (h : e.Alike f) (h' : f.Alike g) : e.Alike g := ⟨h.1.trans h'.1, h.2.trans h'.2⟩

/-- Evaluators that are alike give the same answer. -/
theorem Alike.evaluate_fst_eq (h : e.Alike f) : (e.evaluate disk).1 = (f.evaluate disk).1 := by
  rw [evaluate_fst, evaluate_fst, h.1, h.2]

theorem Alike.compile_eq (h : e.Alike f) : e.compile disk = f.compile disk := by
  unfold compile
  rw [h.evaluate_fst_eq]

end Evaluator

namespace Workspace

/-! ## Workspaces without their past -/

theorem lookup_giveUp (evaluators : List (String × Evaluator)) (id other : String) :
    (evaluators.filter fun entry => entry.1 ≠ id).lookup other =
      if other = id then none else evaluators.lookup other := by
  have hkeep := lookup_filter_key (fun key => decide (key ≠ id)) other evaluators
  rw [hkeep]
  by_cases h : other = id <;> simp [h]

theorem lookup_keepEvaluator (w : Workspace) (id other : String) (e : Evaluator) :
    (w.keepEvaluator id e).evaluators.lookup other = if other = id then some e else w.evaluators.lookup other := by
  have hkeep := lookup_giveUp w.evaluators id other
  unfold keepEvaluator
  by_cases h : other = id
  · simp [h]
  · have hb : (other == id) = false := by simpa using h
    rw [if_neg h] at hkeep ⊢
    rw [List.lookup_cons, hb]
    exact hkeep

/-- Workspaces that are the same apart from what runs have left behind in the evaluators. -/
structure Alike (v w : Workspace) : Prop where
  files_eq : v.files = w.files
  sources_eq : v.sources = w.sources
  evaluators : ∀ id, Option.Rel Evaluator.Alike (v.evaluators.lookup id) (w.evaluators.lookup id)

variable {v w : Workspace}

theorem Alike.keepEvaluator (h : v.Alike w) (id : String) {e f : Evaluator} (he : e.Alike f) :
    (v.keepEvaluator id e).Alike (w.keepEvaluator id f) := by
  refine ⟨h.files_eq, h.sources_eq, fun other => ?_⟩
  rw [lookup_keepEvaluator, lookup_keepEvaluator]
  split
  · exact .some he
  · exact h.evaluators other

/-- Workspaces that are alike answer a step in the same way, and they stay alike. -/
theorem Alike.step (h : v.Alike w) (s : Step) : (v.step s).2 = (w.step s).2 ∧ (v.step s).1.Alike (w.step s).1 := by
  obtain ⟨files, sources, es⟩ := v
  obtain ⟨files', sources', fs⟩ := w
  obtain ⟨hfiles, hsources, he⟩ := id h
  obtain rfl : files = files' := hfiles
  obtain rfl : sources = sources' := hsources
  cases s with
  | write path content => exact ⟨rfl, rfl, rfl, he⟩
  | makeFolder path => exact ⟨rfl, rfl, rfl, he⟩
  | remove path => exact ⟨rfl, rfl, rfl, he⟩
  | keepSources id list => exact ⟨rfl, rfl, rfl, he⟩
  | compileFiles paths ns => exact ⟨rfl, h⟩
  | stream id =>
    simp only [Workspace.step]
    cases sources.lookup id with
    | none => exact ⟨rfl, h⟩
    | some list => exact ⟨rfl, h⟩
  | sourceName id file =>
    simp only [Workspace.step]
    cases sources.lookup id with
    | none => exact ⟨rfl, h⟩
    | some list => exact ⟨rfl, h⟩
  | keepEvaluator id choice ns =>
    cases choice with
    | given input => exact ⟨rfl, h.keepEvaluator id ⟨rfl, rfl⟩⟩
    | kept sourcesId =>
      simp only [Workspace.step]
      cases sources.lookup sourcesId with
      | none => exact ⟨rfl, h⟩
      | some list => exact ⟨rfl, h.keepEvaluator id ⟨rfl, rfl⟩⟩
  | evaluate id =>
    have hid : Option.Rel Evaluator.Alike (es.lookup id) (fs.lookup id) := he id
    simp only [Workspace.step]
    generalize es.lookup id = kept at hid ⊢
    generalize fs.lookup id = kept' at hid ⊢
    cases hid with
    | none => exact ⟨rfl, h⟩
    | @some e f hef =>
      refine ⟨congrArg Answer.schema hef.evaluate_fst_eq, h.keepEvaluator id ?_⟩
      exact (e.alike_evaluate _).trans (hef.trans (f.alike_evaluate _).symm)
  | compile id =>
    have hid : Option.Rel Evaluator.Alike (es.lookup id) (fs.lookup id) := he id
    simp only [Workspace.step]
    generalize es.lookup id = kept at hid ⊢
    generalize fs.lookup id = kept' at hid ⊢
    cases hid with
    | none => exact ⟨rfl, h⟩
    | some hef =>
      refine ⟨congrArg Answer.schema hef.compile_eq, rfl, rfl, fun other => ?_⟩
      rw [lookup_giveUp, lookup_giveUp]
      split
      · exact .none
      · exact he other

theorem run_cons (w : Workspace) (s : Step) (steps : List Step) :
    w.run (s :: steps) = (((w.step s).1.run steps).1, (w.step s).2 :: ((w.step s).1.run steps).2) := rfl

/-- Workspaces that are alike answer all steps in the same way. -/
theorem Alike.run (h : v.Alike w) (steps : List Step) :
    (v.run steps).2 = (w.run steps).2 ∧ (v.run steps).1.Alike (w.run steps).1 := by
  induction steps generalizing v w with
  | nil => exact ⟨rfl, h⟩
  | cons s steps ih =>
    obtain ⟨hs, hnext⟩ := h.step s
    obtain ⟨hrest, hfinal⟩ := ih hnext
    rw [run_cons, run_cons, hs, hrest]
    exact ⟨rfl, hfinal⟩

/-! ## What steps change -/

end Workspace

/-- The files after a step. Steps that ask for something leave them as they are. -/
def Step.effect (files : Files) : Step → Files
  | write path content => files.put path content
  | makeFolder path => files.makeFolders path
  | remove path => files.delete path
  | _ => files

/-- Whether a step puts another evaluator under a name, or gives up the one that is kept there. -/
def Step.replaces (id : String) : Step → Bool
  | keepEvaluator other _ _ => other = id
  | compile other => other = id
  | _ => false

/-- Whether a step runs the evaluator that is kept under a name. -/
def Step.evaluates (id : String) : Step → Bool
  | evaluate other => other = id
  | _ => false

namespace Workspace

variable {w : Workspace} {id : String} {e : Evaluator}

theorem files_step (w : Workspace) (s : Step) : (w.step s).1.files = s.effect w.files := by
  cases s with
  | keepEvaluator id choice ns =>
    cases choice with
    | given input => rfl
    | kept sourcesId =>
      simp only [step]
      split <;> rfl
  | stream | sourceName | evaluate | compile =>
    simp only [step]
    split <;> rfl
  | _ => rfl

/-- The files after several steps. -/
theorem files_run (w : Workspace) (steps : List Step) : (w.run steps).1.files = steps.foldl Step.effect w.files := by
  induction steps generalizing w with
  | nil => rfl
  | cons s steps ih =>
    rw [List.foldl_cons, ← files_step]
    exact ih (w.step s).1

/-- A step keeps an evaluator under its name, for its input and its namespace, and leaves it as it is unless it runs
it. -/
theorem exists_lookup_step {s : Step} (h : w.evaluators.lookup id = some e) (hs : s.replaces id = false) :
    ∃ f, (w.step s).1.evaluators.lookup id = some f ∧ f.Alike e ∧ (s.evaluates id = false → f = e) := by
  cases s with
  | keepEvaluator other choice ns =>
    have hne : id ≠ other := fun he => by simp [Step.replaces, he] at hs
    have hkept (f : Evaluator) : (w.keepEvaluator other f).evaluators.lookup id = some e := by
      rw [lookup_keepEvaluator, if_neg hne, h]
    cases choice with
    | given input => exact ⟨e, hkept _, ⟨rfl, rfl⟩, fun _ => rfl⟩
    | kept sourcesId =>
      simp only [step]
      split
      · exact ⟨e, hkept _, ⟨rfl, rfl⟩, fun _ => rfl⟩
      · exact ⟨e, h, ⟨rfl, rfl⟩, fun _ => rfl⟩
  | evaluate other =>
    simp only [step]
    split
    · rename_i f hf
      by_cases hid : id = other
      · subst hid
        obtain rfl : e = f := Option.some.inj (h.symm.trans hf)
        refine ⟨(e.evaluate w.files.disk).2, ?_, e.alike_evaluate _, fun hn => by simp [Step.evaluates] at hn⟩
        rw [lookup_keepEvaluator, if_pos rfl]
      · refine ⟨e, ?_, ⟨rfl, rfl⟩, fun _ => rfl⟩
        rw [lookup_keepEvaluator, if_neg hid, h]
    · exact ⟨e, h, ⟨rfl, rfl⟩, fun _ => rfl⟩
  | compile other =>
    have hne : id ≠ other := fun he => by simp [Step.replaces, he] at hs
    simp only [step]
    split
    · refine ⟨e, ?_, ⟨rfl, rfl⟩, fun _ => rfl⟩
      rw [lookup_giveUp, if_neg hne, h]
    · exact ⟨e, h, ⟨rfl, rfl⟩, fun _ => rfl⟩
  | stream | sourceName =>
    simp only [step]
    split <;> exact ⟨e, h, ⟨rfl, rfl⟩, fun _ => rfl⟩
  | _ => exact ⟨e, h, ⟨rfl, rfl⟩, fun _ => rfl⟩

/-- Several steps keep an evaluator under its name, for its input and its namespace, and leave it as it is unless one of
them runs it. -/
theorem exists_lookup_run {steps : List Step} (h : w.evaluators.lookup id = some e)
    (hs : ∀ s ∈ steps, s.replaces id = false) : ∃ f, (w.run steps).1.evaluators.lookup id = some f ∧ f.Alike e ∧
      ((∀ s ∈ steps, s.evaluates id = false) → f = e) := by
  induction steps generalizing w e with
  | nil => exact ⟨e, h, ⟨rfl, rfl⟩, fun _ => rfl⟩
  | cons s steps ih =>
    obtain ⟨hhead, htail⟩ := List.forall_mem_cons.1 hs
    obtain ⟨f, hf, hfe, hf'⟩ := exists_lookup_step h hhead
    obtain ⟨g, hg, hgf, hg'⟩ := ih hf htail
    refine ⟨g, hg, hgf.trans hfe, fun hn => ?_⟩
    obtain ⟨hn, hns⟩ := List.forall_mem_cons.1 hn
    rw [hg' hns, hf' hn]

/-! ## Runs after runs -/

theorem length_answers (w : Workspace) (steps : List Step) : (w.run steps).2.length = steps.length := by
  induction steps generalizing w with
  | nil => rfl
  | cons s steps ih => exact congrArg Nat.succ (ih (w.step s).1)

theorem run_append (w : Workspace) (past future : List Step) :
    w.run (past ++ future) =
      (((w.run past).1.run future).1, (w.run past).2 ++ ((w.run past).1.run future).2) := by
  induction past generalizing w with
  | nil => rfl
  | cons s past ih =>
    rw [List.cons_append, run_cons, run_cons, ih, List.cons_append]

/-- The answer of a step is that of the workspace to which the steps before it lead. -/
theorem answer_append (w : Workspace) (past future : List Step) (s : Step) :
    (w.run (past ++ s :: future)).2[past.length]? = some ((w.run past).1.step s).2 := by
  rw [run_append, List.getElem?_append_right (Nat.le_of_eq (w.length_answers past)), length_answers, Nat.sub_self]
  rfl

/-! ## No trace of the past -/

/-- The past of an evaluator leaves no trace. An evaluator may be in any state, and any steps may come before it is run,
if only they leave it under its name. Then it answers as a new one for the same input and the same namespace does on the
files of the moment, and so it does if it is given up for its answer. It keeps its input and its namespace, and runs of
others do not change it. A workspace with other traces of the same past gives the same answers to all steps. -/
theorem run_leaves_no_trace {w : Workspace} {past : List Step} {id : String} {e : Evaluator}
    (hkept : w.evaluators.lookup id = some e) (hpast : ∀ s ∈ past, s.replaces id = false) :
    (∀ future, (w.run (past ++ .evaluate id :: future)).2[past.length]? =
      some (.schema ((Evaluator.new e.input e.ns).evaluate (past.foldl Step.effect w.files).disk).1)) ∧
    (∀ future, (w.run (past ++ .compile id :: future)).2[past.length]? =
      some (.schema ((Evaluator.new e.input e.ns).compile (past.foldl Step.effect w.files).disk))) ∧
    (∃ f, (w.run past).1.evaluators.lookup id = some f ∧ f.input = e.input ∧ f.ns = e.ns ∧
      ((∀ s ∈ past, s.evaluates id = false) → f = e)) ∧
    ∀ v : Workspace, v.Alike (w.run past).1 → ∀ future, (v.run future).2 = ((w.run past).1.run future).2 := by
  obtain ⟨f, hf, hfe, hunchanged⟩ := exists_lookup_run hkept hpast
  have hnew : f.Alike (.new e.input e.ns) := hfe
  refine ⟨fun future => ?_, fun future => ?_, ⟨f, hf, hfe.1, hfe.2, hunchanged⟩, fun v hv future => (hv.run future).1⟩
  · rw [answer_append, ← files_run]
    simp only [step, hf]
    rw [hnew.evaluate_fst_eq]
  · rw [answer_append, ← files_run]
    simp only [step, hf]
    rw [hnew.compile_eq]

/-- Runs that fail one after the other, without the file, at a text that is no token, in the middle of a definition, at
a second definition of a name and at a name that is not defined, leave something behind, and the next one succeeds. -/
theorem run_leaves_no_trace_failures :
    let e := Evaluator.new (.sources [.file "a"]) "N"
    let w : Workspace := ⟨Files.empty, [], [("p", e), ("q", Evaluator.new (.sources [.text "struct Q \x7b"]) "N")]⟩
    let past := .evaluate "p" ::
      ["struct @", "struct A \x7b A x", "struct A \x7b \x7d struct A \x7b \x7d", "struct A \x7b B b; \x7d"].flatMap
        (fun text => [Step.write "a" text.toUTF8, .evaluate "p", .evaluate "q"]) ++
      [.write "a" "struct B \x7b \x7d".toUTF8]
    (w.run past).1.evaluators.lookup "p" ≠ some e ∧ ∃ s,
      (e.evaluate (past.foldl Step.effect w.files).disk).1 = .ok s ∧
        (w.run (past ++ [.evaluate "p"])).2[14]? = some (.schema (.ok s)) := by
  intro e w past
  refine ⟨by decide +kernel, ?_⟩
  have hkept := (@run_leaves_no_trace w past "p" e rfl (by decide)).1 []
  obtain ⟨s, hs⟩ : ∃ s, (e.evaluate (past.foldl Step.effect w.files).disk).1 = .ok s :=
    exists_of_isOk (by decide +kernel)
  refine ⟨s, hs, ?_⟩
  rw [← hs]
  exact hkept

end Workspace

end SchemaLang
