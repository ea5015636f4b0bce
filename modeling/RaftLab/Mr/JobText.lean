import Mathlib.Data.List.TakeWhile
import RaftLab.Mr.Cluster

/-
  The texts of jobs: what AllocWork concatenates
  (src/mr/coordinator.go) and do_it splits again
  (src/mr/worker.go).

  The parts are put together with single blanks and taken
  apart at every blank, so a file name comes back as far as
  its first blank. Numbers have no blanks and come back as
  they are. Go's int is an unbounded integer here.

  Main declarations:
    * `Mr.Work.text`
    * `Mr.doIt`, `Mr.doIt_map`, `Mr.doIt_begin`
    * `Mr.job_text_round_trip`
-/

------------------------------------------------------------
-- Numbers
------------------------------------------------------------

namespace RaftLab

namespace Mr

/- strconv.Itoa -/
def itoa (i : Int) : String :=
  if i < 0 then "-" ++ i.natAbs.repr else i.natAbs.repr

/- The number that decimal digits stand for. -/
def digitsValue (digits : List Char) : Option Nat :=
  if digits ≠ [] ∧ digits.all Char.isDigit then
    some (Nat.ofDigitChars 10 digits 0)
  else
    none

/- strconv.Atoi; a text that is no number gives 0. -/
def atoi (text : String) : Int :=
  match text.toList with
  | '-' :: digits => -((digitsValue digits).getD 0 : Nat)
  | '+' :: digits => ((digitsValue digits).getD 0 : Nat)
  | digits => ((digitsValue digits).getD 0 : Nat)

theorem digitsValue_toDigits (k : Nat) :
    digitsValue (Nat.toDigits 10 k) = some k := by
  have hAll : (Nat.toDigits 10 k).all Char.isDigit = true := by
    rw [List.all_eq_true]
    intro ch hMem
    exact Nat.isDigit_of_mem_toDigits (by decide) (by decide)
      hMem
  unfold digitsValue
  rw [if_pos ⟨Nat.toDigits_ne_nil, hAll⟩,
    Nat.ofDigitChars_ten_toDigits]

/- The first digit of a number is not a sign. -/
theorem atoi_repr (k : Nat) :
    atoi k.repr = k := by
  have hValue := digitsValue_toDigits k
  unfold atoi
  rw [Nat.toList_repr]
  split
  · next digits hDigits =>
      have hDigit := Nat.isDigit_of_mem_toDigits (n := k)
        (b := 10) (c := '-') (by decide) (by decide)
        (by rw [hDigits]; exact List.mem_cons_self)
      exact absurd hDigit (by decide)
  · next digits hDigits =>
      have hDigit := Nat.isDigit_of_mem_toDigits (n := k)
        (b := 10) (c := '+') (by decide) (by decide)
        (by rw [hDigits]; exact List.mem_cons_self)
      exact absurd hDigit (by decide)
  · rw [hValue]
    rfl

theorem atoi_itoa (i : Int) :
    atoi (itoa i) = i := by
  unfold itoa
  split
  · next hNeg =>
      have hList : ("-" ++ i.natAbs.repr).toList =
          '-' :: Nat.toDigits 10 i.natAbs := by
        rw [String.toList_append, Nat.toList_repr]
        rfl
      unfold atoi
      rw [hList]
      change -(((digitsValue (Nat.toDigits 10
        i.natAbs)).getD 0 : Nat) : Int) = i
      rw [digitsValue_toDigits, Option.getD_some]
      omega
  · next hNonneg =>
      rw [atoi_repr]
      omega

theorem blank_not_mem_itoa (i : Int) :
    ' ' ∉ (itoa i).toList := by
  have hDigits : ' ' ∉ i.natAbs.repr.toList := by
    rw [Nat.toList_repr]
    intro hMem
    have hDigit := Nat.isDigit_of_mem_toDigits (by decide)
      (by decide) hMem
    exact absurd hDigit (by decide)
  unfold itoa
  split
  · rw [String.toList_append]
    intro hMem
    rcases List.mem_append.mp hMem with hSign | hRest
    · exact absurd hSign (by decide)
    · exact hDigits hRest
  · exact hDigits

------------------------------------------------------------
-- Texts
------------------------------------------------------------

/- The text of a job, as workerMap holds it. -/
def Work.text : Work → String
| .noJob => "No job"
| .empty => ""
| .none => "None"
| .exit => "Exit"
| .map readyWork file =>
    "Map" ++ " " ++ itoa readyWork ++ " " ++ file
| .reduce readyWork =>
    "Reduce" ++ " " ++ itoa readyWork ++ " " ++ itoa readyWork

/- strings.Split(work, " ") -/
def splitBlank (work : String) : List String :=
  (work.toList.splitOn ' ').map String.ofList

/- What do_it reads from the text of a job. -/
structure WorkArgs where
  workType : String
  workId : Int
  workArg : String
deriving DecidableEq, Repr

/- The start of do_it; a missing part is out of range. -/
def doIt (work : String) : Option WorkArgs :=
  match splitBlank work with
  | workType :: workId :: workArg :: _ =>
      some {
        workType := workType
        workId := atoi workId
        workArg := workArg }
  | _ => none

/- The function do_it calls. -/
def WorkArgs.begin (args : WorkArgs) : Proc :=
  if args.workType = "Map" then
    .mapping args.workId.toNat args.workArg 0
  else
    .reducing args.workId.toNat

/- What stands before the first blank is the first part. -/
theorem splitBlank_append
    {part : String}
    (hPart : ' ' ∉ part.toList)
    (rest : String) :
    splitBlank (part ++ " " ++ rest) =
      part :: splitBlank rest := by
  have hList : (part ++ " " ++ rest).toList =
      part.toList ++ ' ' :: rest.toList := by
    rw [String.toList_append, String.toList_append,
      List.append_assoc]
    rfl
  unfold splitBlank
  rw [hList, List.splitOn_append_cons_self_of_not_mem hPart,
    List.map_cons, String.ofList_toList]

/- The first part ends at the first blank. -/
theorem splitBlank_head (text : String) :
    ∃ rest, splitBlank text = pathOf text :: rest := by
  have hHead : ∀ chars : List Char, ∃ rest,
      chars.splitOn ' ' =
        chars.takeWhile (fun ch => ch != ' ') :: rest := by
    intro chars
    induction chars with
    | nil => exact ⟨[], rfl⟩
    | cons ch chars ih =>
        rcases ih with ⟨rest, hRest⟩
        rw [List.splitOn_cons_eq_if_modifyHead]
        by_cases hBlank : ch = ' '
        · subst hBlank
          exact ⟨chars.splitOn ' ', by simp⟩
        · exact ⟨rest, by simp [hBlank, hRest]⟩
  rcases hHead text.toList with ⟨rest, hRest⟩
  refine ⟨rest.map String.ofList, ?_⟩
  unfold splitBlank
  rw [hRest]
  rfl

theorem pathOf_eq_iff (file : String) :
    pathOf file = file ↔ ' ' ∉ file.toList := by
  unfold pathOf
  constructor
  · intro hSame hMem
    have hWhile : file.toList.takeWhile
        (fun ch => ch != ' ') = file.toList := by
      rw [← String.toList_ofList
        (l := file.toList.takeWhile (fun ch => ch != ' ')),
        hSame]
    have hNot := List.takeWhile_eq_self_iff.mp hWhile ' ' hMem
    simp at hNot
  · intro hNone
    rw [List.takeWhile_eq_self_iff.mpr, String.ofList_toList]
    intro ch hMem
    rw [bne_iff_ne]
    rintro rfl
    exact hNone hMem

------------------------------------------------------------
-- Splitting What Was Joined
------------------------------------------------------------

theorem doIt_map
    (readyWork : Nat)
    (file : String) :
    doIt (Work.map readyWork file).text = some {
      workType := "Map"
      workId := readyWork
      workArg := pathOf file } := by
  have hText : (Work.map readyWork file).text =
      "Map" ++ " " ++ (itoa readyWork ++ " " ++ file) := by
    unfold Work.text
    simp only [String.append_assoc]
  rcases splitBlank_head file with ⟨rest, hRest⟩
  unfold doIt
  rw [hText, splitBlank_append (by decide),
    splitBlank_append (blank_not_mem_itoa _), hRest]
  dsimp only
  rw [atoi_itoa]

theorem doIt_reduce (readyWork : Nat) :
    doIt (Work.reduce readyWork).text = some {
      workType := "Reduce"
      workId := readyWork
      workArg := itoa readyWork } := by
  have hText : (Work.reduce readyWork).text =
      "Reduce" ++ " " ++
        (itoa readyWork ++ " " ++ itoa readyWork) := by
    unfold Work.text
    simp only [String.append_assoc]
  rcases splitBlank_head (itoa readyWork) with ⟨rest, hRest⟩
  rw [(pathOf_eq_iff _).mpr (blank_not_mem_itoa _)] at hRest
  unfold doIt
  rw [hText, splitBlank_append (by decide),
    splitBlank_append (blank_not_mem_itoa _), hRest]
  dsimp only
  rw [atoi_itoa]

/- A worker begins what the model says it does. -/
theorem doIt_begin
    {work : Work}
    (hTask :
      (∃ id file, work = .map id file) ∨
        ∃ id, work = .reduce id) :
    (doIt work.text).map WorkArgs.begin =
      some work.begin := by
  rcases hTask with ⟨id, file, rfl⟩ | ⟨id, rfl⟩
  · rw [doIt_map]
    rfl
  · rw [doIt_reduce]
    rfl

/-
  The text of a map task comes back as its type, its number
  and its file name exactly if the name has no blank, and the
  text of a reduce task always does.
-/
theorem job_text_round_trip (readyWork : Nat) :
    (∀ file,
      doIt (Work.map readyWork file).text = some {
        workType := "Map"
        workId := readyWork
        workArg := file } ↔ ' ' ∉ file.toList) ∧
    ∃ workArg,
      doIt (Work.reduce readyWork).text = some {
        workType := "Reduce"
        workId := readyWork
        workArg := workArg } := by
  constructor
  · intro file
    rw [doIt_map, Option.some.injEq, WorkArgs.mk.injEq,
      ← pathOf_eq_iff]
    constructor
    · rintro ⟨_, _, hPath⟩
      exact hPath
    · intro hPath
      exact ⟨rfl, rfl, hPath⟩
  · exact ⟨_, doIt_reduce readyWork⟩

/- The name "a b" comes back as "a". -/
theorem blank_cuts_file_name :
    doIt (Work.map 0 "a b").text = some {
      workType := "Map"
      workId := 0
      workArg := "a" } ∧
    ("a" : String) ≠ "a b" := by
  decide +kernel

end Mr

end RaftLab
