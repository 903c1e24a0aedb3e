import LexicalSelection.LexicalUnit

/-!
# The units of a whole stream

A stream has segments with separators between them.  All of its units are read in order, the end of
each segment among them, so that no blank text is lost on the way.

* `LexicalUnit.readAll` — the units of an input, up to its end or to a broken sequence.
-/

namespace LexicalSelection.LexicalUnit

/-- The units of an input, segment ends included, and the broken sequence that reading stopped at.
Behind the end of a segment that is not the last one stands a separator, which is taken. -/
def readAll (tags : TagNumbers) (input : Input) : List LexicalUnit × Option BrokenSequence :=
  match h : read tags input with
  | .error fault _ => ([], some fault)
  | .ok unit rest =>
    have hlen := read_length h
    if hend : unit.isEnd then
      match rest, hlen with
      | [], _ => ([unit], none)
      | _ :: behind, hlen =>
        have : behind.length < input.length := by
          rw [List.length_cons] at hlen
          omega
        let (units, fault) := readAll tags behind
        (unit :: units, fault)
    else
      have : rest.length < input.length := by
        rw [if_neg hend] at hlen
        omega
      let (units, fault) := readAll tags rest
      (unit :: units, fault)
termination_by input.length

end LexicalSelection.LexicalUnit
