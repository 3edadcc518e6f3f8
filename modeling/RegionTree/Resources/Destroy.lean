import RegionTree.Resources

/-! Taking nodes out of use: their translations go, their slots are free again. -/
namespace RegionTree

/-- Frees the slot of a node whose translations and children are gone. -/
def Resources.bury {M : Type} (r : Resources M) (kind : NodeKind) (l : Label) : Resources M :=
  let r := r.note (.destroying kind l.name l.extent.toSpan)
  let r := if r.image = some l.handle then { r with image := none } else r
  r.release l.handle

mutual
def Node.destroy {M : Type} [Mmu M] (r : Resources M) : Node → Resources M
  | .region l children => (Forest.destroy r children).bury .region l
  | .mapping m => (r.unmapPages m.extent.toSpan).bury .mapping m.toLabel
def Forest.destroy {M : Type} [Mmu M] (r : Resources M) : Forest → Resources M
  | [] => r
  | n :: rest => Forest.destroy (n.destroy r) rest
end

end RegionTree
