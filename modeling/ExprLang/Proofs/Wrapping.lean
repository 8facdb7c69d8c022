import ExprLang.Diagnostic.Report
import ExprLang.Proofs.Lines
import Mathlib

namespace ExprLang

/-- What the failures of statements put in front of a message, that of the last one first. -/
def StmtKind.preamble (kinds : List StmtKind) : String :=
  String.join (kinds.reverse.map fun kind => "parsing " ++ kind.label ++ " statement failed: ")

/-- The diagnostic as the failure of one statement after another, the last kind outermost. -/
def Diagnostic.wrapAll (d : Diagnostic) (kinds : List StmtKind) : Diagnostic := kinds.foldl wrap d

/-- The tip as it stands behind the name of its problem. -/
def Tip.aside : Tip → String
  | none => ""
  | suggestion text => " (" ++ text ++ ")"

namespace StmtKind

@[simp] theorem preamble_nil : preamble [] = "" := rfl

@[simp] theorem preamble_cons (kind : StmtKind) (kinds : List StmtKind) :
    preamble (kind :: kinds) =
      preamble kinds ++ ("parsing " ++ kind.label ++ " statement failed: ") := by
  rw [preamble, List.reverse_cons, List.map_append, String.join_append, List.map_singleton,
    String.join_cons, String.join_nil, String.append_empty]
  rfl

theorem preamble_eq_empty_iff {kinds : List StmtKind} : preamble kinds = "" ↔ kinds = [] := by
  refine ⟨fun h => ?_, fun h => h ▸ preamble_nil⟩
  cases kinds with
  | nil => rfl
  | cons kind kinds =>
    rw [preamble_cons, String.append_eq_empty_iff, String.append_eq_empty_iff] at h
    exact absurd h.2.2 (by decide)

end StmtKind

/-- The name of a problem is on one line. -/
theorem Problem.newline_not_mem_name (p : Problem) : '\n' ∉ p.name.toList := by
  cases p <;> rw [name] <;> decide

namespace Diagnostic

@[simp] theorem wrapAll_nil (d : Diagnostic) : d.wrapAll [] = d := rfl

@[simp] theorem wrapAll_cons (d : Diagnostic) (kind : StmtKind) (kinds : List StmtKind) :
    d.wrapAll (kind :: kinds) = (d.wrap kind).wrapAll kinds := rfl

@[simp] theorem position_wrapAll (d : Diagnostic) (kinds : List StmtKind) :
    (d.wrapAll kinds).position = d.position := by
  induction kinds generalizing d with
  | nil => rfl
  | cons kind kinds ih => exact ih (d.wrap kind)

@[simp] theorem tip_wrapAll (d : Diagnostic) (kinds : List StmtKind) :
    (d.wrapAll kinds).problem.tip = d.problem.tip := by
  induction kinds generalizing d with
  | nil => rfl
  | cons kind kinds ih => rw [wrapAll_cons, ih, tip_wrap]

theorem name_wrapAll (d : Diagnostic) (kinds : List StmtKind) :
    (d.wrapAll kinds).problem.name = if kinds = [] then d.problem.name else "StatementFailed" := by
  induction kinds generalizing d with
  | nil => rfl
  | cons kind kinds ih =>
    rw [wrapAll_cons, ih, if_neg (List.cons_ne_nil kind kinds)]
    exact ite_self _

theorem message_wrapAll (d : Diagnostic) (kinds : List StmtKind) :
    (d.wrapAll kinds).message = StmtKind.preamble kinds ++ d.message := by
  induction kinds generalizing d with
  | nil => rw [wrapAll_nil, StmtKind.preamble_nil, String.empty_append]
  | cons kind kinds ih =>
    rw [wrapAll_cons, ih, message_wrap, StmtKind.preamble_cons]
    exact String.append_assoc.symm

/-- The causes are the diagnostics before each of the failures, the last of them first, and then
what caused the diagnostic itself. -/
theorem causes_wrapAll (d : Diagnostic) (kinds : List StmtKind) :
    (d.wrapAll kinds).problem.causes =
      ((List.range kinds.length).reverse.map fun n => (d.wrapAll (kinds.take n)).problem) ++
        d.problem.causes := by
  induction kinds generalizing d with
  | nil => rfl
  | cons kind kinds ih =>
    rw [wrapAll_cons, ih, causes_wrap, List.length_cons, List.range_succ_eq_map,
      List.reverse_cons, List.map_append, ← List.map_reverse, List.map_map, List.append_assoc]
    rfl

/-- Asking for the cause once for each failure leads back to the problem. -/
theorem cause?_wrapAll (d : Diagnostic) (kinds : List StmtKind) :
    (Option.bind · Problem.cause?)^[kinds.length] (some (d.wrapAll kinds).problem) =
      some d.problem := by
  induction kinds generalizing d with
  | nil => rfl
  | cons kind kinds ih =>
    rw [List.length_cons, Function.iterate_succ_apply', wrapAll_cons, ih]
    rfl

theorem headline_eq (d : Diagnostic) :
    d.headline = "Error: " ++ d.problem.name ++ d.problem.tip.aside := by
  rw [headline]
  cases d.problem.tip with
  | none => exact String.append_empty.symm
  | suggestion text => simp only [Tip.aside, String.append_assoc]

/-- What a report says behind the name of the problem. -/
def rest (d : Diagnostic) (source : String) : String :=
  "\n".intercalate (d.problem.tip.aside :: (d.reportLines source).tail)

theorem report_eq (d : Diagnostic) (source : String) :
    d.report source = "Error: " ++ d.problem.name ++ d.rest source := by
  have hlines : d.reportLines source = d.headline :: (d.reportLines source).tail := rfl
  rw [report, hlines, headline_eq, String.intercalate_cons_append, rest]

/-- The failures show in the rest of a report only through its message, which stands in the place
of the line that a text without the diagnostic's place has not. -/
theorem rest_wrapAll_eq_iff {d : Diagnostic} {kinds : List StmtKind} {source : String} :
    (d.wrapAll kinds).rest source = d.rest source ↔
      kinds = [] ∨ d.position.offset ≤ source.utf8ByteSize := by
  rw [rest, rest, tip_wrapAll, reportLines, reportLines, position_wrapAll, message_wrapAll]
  cases hl : Line.at? source d.position.offset with
  | none =>
    have hout := Line.at?_eq_none_iff.mp hl
    rw [or_iff_left (Nat.not_le.mpr hout), ← StmtKind.preamble_eq_empty_iff]
    simp only [List.tail_cons, String.intercalate_cons_cons, String.intercalate_singleton,
      String.append_right_inj, String.append_eq_right_iff]
  | some line =>
    have hin := mt Line.at?_eq_none_iff.mpr (hl ▸ Option.some_ne_none line)
    exact iff_of_true rfl (.inr (Nat.not_lt.mp hin))

end Diagnostic

/-- The failures of statements around a diagnostic add to the front of its message and of its
causes and give it their name. Its place and its tip stay, and so does the report but for the name,
in each text that has the place and in no other. -/
theorem failures_add_frame (d : Diagnostic) (kinds : List StmtKind) :
    (d.wrapAll kinds).position = d.position ∧
      (d.wrapAll kinds).problem.tip = d.problem.tip ∧
      (d.wrapAll kinds).message = StmtKind.preamble kinds ++ d.message ∧
      (d.wrapAll kinds).problem.causes.map Problem.message =
        ((List.range kinds.length).reverse.map fun n =>
          StmtKind.preamble (kinds.take n) ++ d.message) ++
          d.problem.causes.map Problem.message ∧
      (Option.bind · Problem.cause?)^[kinds.length] (some (d.wrapAll kinds).problem) =
        some d.problem ∧
      (d.wrapAll kinds).problem.name =
        (if kinds = [] then d.problem.name else "StatementFailed") ∧
      '\n' ∉ (d.wrapAll kinds).problem.name.toList ∧
      ∀ source,
        (∃ back, d.report source = "Error: " ++ d.problem.name ++ back ∧
          (d.wrapAll kinds).report source =
            "Error: " ++ (d.wrapAll kinds).problem.name ++ back) ↔
          kinds = [] ∨ d.position.offset ≤ source.utf8ByteSize := by
  refine ⟨d.position_wrapAll kinds, d.tip_wrapAll kinds, d.message_wrapAll kinds, ?_,
    d.cause?_wrapAll kinds, d.name_wrapAll kinds, Problem.newline_not_mem_name _, ?_⟩
  · rw [d.causes_wrapAll kinds, List.map_append, List.map_map]
    congr 1
    exact List.map_congr_left fun n _ => d.message_wrapAll (kinds.take n)
  · intro source
    rw [← Diagnostic.rest_wrapAll_eq_iff, d.report_eq, (d.wrapAll kinds).report_eq]
    constructor
    · rintro ⟨back, h, hw⟩
      rw [String.append_right_inj] at h hw
      rw [hw, h]
    · intro h
      exact ⟨d.rest source, rfl, congrArg _ h⟩

/-- The failure that comes last is told of first. -/
example :
    ((Diagnostic.integerTooLarge ⟨.integer, "9", default⟩).wrapAll [.binding, .returning]).message =
      "parsing return statement failed: parsing let statement failed: " ++
        "could not parse 9 as integer" := by
  decide

end ExprLang
