import RegionTree.Handle
import RegionTree.Mmu

/-! What a space reports while it works: notices for a reader, and the calls to its mmu. -/
namespace RegionTree

inductive SpaceKind where
  | user
  | kernel
deriving DecidableEq

def SpaceKind.describe : SpaceKind → String
  | .user => "User"
  | .kernel => "Kernel"

inductive Level where
  | warn
  | info
  | trace
deriving DecidableEq

def Level.display : Level → String
  | .warn => "WARN"
  | .info => "INFO"
  | .trace => "TRACE"

/-- A line for a reader, as data. -/
inductive Notice where
  | spaceCreated (kind : SpaceKind) (root : Handle) (flags : RegionFlags)
  | spotPicked (spot size align : Nat) (region : Span)
  /-- The mmu wants more room around a drawn spot than the gap has. -/
  | spotRejected (spot : Nat)
  | regionCreated (name : String) (span : Span) (flags : RegionFlags)
  | mappingCreated (name : String) (span : Span) (flags : RegionFlags) (access : PageFlags)
  | policiesConflict (name : String) (object access : CachePolicy)
  | nodeLimitReached (limit : Nat)
  | mappingSplit (node : Handle) (cut : Nat)
  | overwritten (span : Span) (parent : Handle)
  | accessChanged (span : Span) (access : PageFlags)
  | destroying (kind : NodeKind) (name : String) (span : Span)
  | faultDenied (address : Nat) (flags : FaultFlags) (access : PageFlags)
  | faultResolved (address : Nat) (flags : FaultFlags) (page frame : Nat)
  | listingLine (text : String)
  | listingFailed (e : Error)

namespace Notice

def level : Notice → Level
  | .policiesConflict .. | .nodeLimitReached _ | .listingFailed _ => .warn
  | .listingLine _ => .info
  | _ => .trace

def text : Notice → String
  | .spaceCreated kind root flags =>
    "created " ++ kind.describe ++ " address space root " ++ root.describe ++ " with flags " ++
      flags.display
  | .spotPicked spot size align region =>
    "picked spot " ++ Address.display spot ++ " for size " ++ Hex.short size ++ " align " ++
      Hex.short align ++ " in " ++ region.display
  | .spotRejected spot => "mmu rejected random spot " ++ Address.display spot ++ ", searching upwards"
  | .regionCreated name span flags =>
    "created region '" ++ name ++ "' " ++ span.display ++ " flags " ++ flags.display
  | .mappingCreated name span flags access =>
    "created mapping '" ++ name ++ "' " ++ span.display ++ " flags " ++ flags.display ++
      " mmu flags " ++ access.display
  | .policiesConflict name object access =>
    "mapping '" ++ name ++ "' has conflicting cache policies: object " ++ object.display ++
      " mmu flags " ++ access.display
  | .nodeLimitReached limit => "address space node limit of " ++ toString limit ++ " reached"
  | .mappingSplit node cut => "split mapping " ++ node.describe ++ " at " ++ Address.display cut
  | .overwritten span parent => "overwrote " ++ span.display ++ " in " ++ parent.describe
  | .accessChanged span access => "protected " ++ span.display ++ " with " ++ access.display
  | .destroying kind name span =>
    "destroying " ++ kind.display ++ " '" ++ name ++ "' " ++ span.display
  | .faultDenied address flags access =>
    "page fault at " ++ Address.display address ++ " with " ++ flags.display ++ " denied by " ++
      access.display
  | .faultResolved address flags page frame =>
    "page fault at " ++ Address.display address ++ " (" ++ flags.display ++ ") resolved to " ++
      Address.display page ++ " -> " ++ Address.display frame
  | .listingLine text => text
  | .listingFailed e => "cannot dump address space: " ++ e.message

end Notice

inductive MmuCall where
  | pick (query : SpotQuery) (answer : Option Nat)
  | map (page frame length : Nat) (access : PageFlags)
  | unmap (span : Span)
  | protect (span : Span) (access : PageFlags)

inductive Event where
  | notice (n : Notice)
  | call (c : MmuCall)

end RegionTree
