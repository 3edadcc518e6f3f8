import RegionTree.Node.Walk
import RegionTree.Space
import RegionTree.Text.Lines

/-! A tree as text, a line per node, two more columns for each level. -/
namespace RegionTree

def maxIndentation : Nat := (1 <<< 16) - 1

namespace Node

def details : Node → String
  | .region l _ => " flags " ++ l.flags.display
  | .mapping m => " mmu " ++ m.access.display ++ " offset " ++ Hex.short m.offset

def description (n : Node) : String :=
  n.kind.display ++ " [" ++ Address.display n.start ++ " " ++ Address.display n.extent.last ++
    "] sz " ++ Hex.short n.extent.length ++ n.details ++ " '" ++ n.label.name ++ "'"

def indented (depth : Nat) (n : Node) : String :=
  String.ofList (List.replicate (2 * depth) ' ') ++ n.description

def line (depth : Nat) (n : Node) : String := n.indented depth ++ "\n"

def line? (depth : Nat) (n : Node) : Except Breach String :=
  if Address.limit ≤ 2 * depth then .error .mulOverflow
  else if maxIndentation < 2 * depth then .error .indentation
  else .ok (n.line depth)

end Node

def spend (budget : Option Nat) (text : String) : Except Failure (Option Nat) :=
  match budget with
  | none => .ok none
  | some bytes =>
    if text.utf8ByteSize ≤ bytes then .ok (some (bytes - text.utf8ByteSize))
    else .error (Error.internal "dump writer failed")

/-- The lines of some nodes, which may take no more bytes than the budget. -/
def composeLines : Option Nat → List (Nat × Node) → Except Failure String
  | _, [] => .ok ""
  | budget, (depth, n) :: rest =>
    match n.line? depth with
    | .error f => .error f
    | .ok line =>
      match spend budget line with
      | .error f => .error f
      | .ok budget => (composeLines budget rest).map (line ++ ·)

namespace Space
variable {M : Type}

def listing (s : Space M) (h : Handle) (depth : UInt64) (budget : Option Nat) :
    Except Failure String := do
  let n ← s.liveNode h
  composeLines budget (n.outline depth.toNat)

def reportListing (s : Space M) (h : Handle) (depth : UInt64) : Outcome (Space M) Unit :=
  match s.listing h depth none with
  | .ok text =>
    let notices := (Lines.ofString text).map fun line => Event.notice (.listingLine line)
    .ok () { s with resources := s.resources.reportAll notices }
  | .error (.error e) => .ok () { s with resources := s.resources.note (.listingFailed e) }
  | .error (.breach f) => .fail f s

end Space
end RegionTree
