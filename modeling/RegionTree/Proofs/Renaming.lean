import RegionTree.Proofs.Minus
import RegionTree.Proofs.Space

/-! Other handles for the nodes of a tree: what does not depend on handles stays, and so does the whole of
a part whose handles are left alone. -/
namespace RegionTree

mutual
def Node.renamed (f : Handle → Handle) : Node → Node
  | .region l children => .region { l with handle := f l.handle } (Forest.renamed f children)
  | .mapping m => .mapping { m with handle := f m.handle }
def Forest.renamed (f : Handle → Handle) : Forest → Forest
  | [] => []
  | n :: rest => n.renamed f :: Forest.renamed f rest
end

variable {f : Handle → Handle}

theorem Forest.renamed_eq_map (ns : Forest) : Forest.renamed f ns = ns.map (Node.renamed f) := by
  induction ns with
  | nil => rfl
  | cons n ns ih => rw [Forest.renamed, ih, List.map_cons]

theorem Node.start_renamed (n : Node) : (n.renamed f).start = n.start := by cases n <;> rfl

mutual
theorem Node.handles_renamed : (n : Node) →
    (n.renamed f).entries.map Entry.handle = (n.entries.map Entry.handle).map f
  | .region l children => by
      simp only [Node.renamed, Node.entries, List.map_cons, Forest.handles_renamed children,
        Entry.handle_region]
  | .mapping m => rfl
theorem Forest.handles_renamed : (ns : Forest) →
    (Forest.entries (Forest.renamed f ns)).map Entry.handle = ((Forest.entries ns).map Entry.handle).map f
  | [] => rfl
  | n :: ns => by
      simp only [Forest.renamed, Forest.entries_cons, List.map_append, n.handles_renamed,
        Forest.handles_renamed ns]
end

theorem Node.length_renamed (n : Node) : (n.renamed f).entries.length = n.entries.length := by
  simpa only [List.length_map] using congrArg List.length n.handles_renamed

mutual
theorem Node.renamed_of_fixed : (n : Node) → (∀ e ∈ n.entries, f e.handle = e.handle) → n.renamed f = n
  | .region l children, fixed => by
      obtain ⟨here, below⟩ := List.forall_mem_cons.mp fixed
      rw [Node.renamed, Forest.renamed_of_fixed children below]
      exact congrArg (fun h => Node.region { l with handle := h } children) here
  | .mapping m, fixed =>
      congrArg (fun h => Node.mapping { m with handle := h }) (fixed _ (List.mem_singleton_self _))
theorem Forest.renamed_of_fixed : (ns : Forest) → (∀ e ∈ Forest.entries ns, f e.handle = e.handle) →
    Forest.renamed f ns = ns
  | [], _ => rfl
  | n :: ns, fixed => by
      obtain ⟨first, later⟩ := List.forall_mem_append.mp fixed
      rw [Forest.renamed, n.renamed_of_fixed first, Forest.renamed_of_fixed ns later]
end

theorem Context.renamed_plug {c : List Frame} {n : Node} (fixed : ∀ e ∈ around c, f e.handle = e.handle) :
    (plug c n).renamed f = plug c (n.renamed f) := by
  induction c generalizing n with
  | nil => rfl
  | cons frame c ih =>
      simp only [around, entriesBefore, entriesBehind, List.forall_mem_append, List.forall_mem_cons,
        Entry.handle_region] at fixed
      obtain ⟨⟨outer, here, before⟩, behind, outer'⟩ := fixed
      have filled : (frame.fill n).renamed f = frame.fill (n.renamed f) := by
        have row : Forest.renamed f (frame.before ++ n :: frame.behind) =
            frame.before ++ n.renamed f :: frame.behind := by
          have before := Forest.renamed_of_fixed _ before
          have behind := Forest.renamed_of_fixed _ behind
          rw [Forest.renamed_eq_map] at before behind ⊢
          rw [List.map_append, List.map_cons, before, behind]
        rw [Frame.fill, Node.renamed, row]
        exact congrArg (fun h => Node.region { frame.label with handle := h } _) here
      rw [plug, ih (List.forall_mem_append.mpr ⟨outer, outer'⟩), filled, plug]

/-- What a range leaves of a child differs in the node behind a hole only. -/
theorem Node.renamed_minus {n : Node} (target : Span) (new : Handle)
    (fixed : ∀ e ∈ n.entries, f e.handle = e.handle) :
    (n.minus target new).map (Node.renamed f) = n.minus target (f new) := by
  cases n with
  | region l children =>
      have same := (Node.region l children).renamed_of_fixed fixed
      rw [minus, minus]
      split
      · rfl
      · rw [List.map_singleton, same]
  | mapping m =>
      have same : f m.handle = m.handle := fixed _ (List.mem_singleton_self _)
      have names : [m.handle, f new] = [m.handle, new].map f := by
        rw [List.map_cons, same, List.map_singleton]
      simp only [minus, Mapping.minus, List.map_zipWith, names, List.zipWith_map_left]
      rfl

theorem Forest.renamed_minus {children : Forest} (target : Span) (new : Handle)
    (fixed : ∀ e ∈ Forest.entries children, f e.handle = e.handle) :
    (children.flatMap (Node.minus target new)).map (Node.renamed f) =
      children.flatMap (Node.minus target (f new)) := by
  rw [List.map_flatMap, List.flatMap_def, List.flatMap_def]
  refine congrArg List.flatten (List.map_congr_left fun n hn => ?_)
  exact Node.renamed_minus target new fun e he => fixed e (Forest.mem_entries_iff.mpr ⟨n, hn, he⟩)

namespace Space
variable {M : Type} {s s' : Space M}

variable {c : Context} {l : Label} {children : Forest} {target : Span} {new : Handle}

theorem renamed_plug_row (tree : s.tree = some (Context.plug c (.region l children)))
    (fixed : ∀ e ∈ s.entries, f e.handle = e.handle) (row : Forest) :
    (Context.plug c (.region l row)).renamed f = Context.plug c (.region l (row.map (Node.renamed f))) := by
  have known : ∀ e ∈ Forest.entries children ++ (.region l :: Context.around c), f e.handle = e.handle :=
    fun e he => fixed e ((entries_perm [] tree).mem_iff.mpr he)
  obtain ⟨here, around⟩ := List.forall_mem_cons.mp (List.forall_mem_append.mp known).2
  rw [Context.renamed_plug around, Node.renamed, Forest.renamed_eq_map]
  exact congrArg (fun x => Context.plug c (.region { l with handle := x } _)) here

theorem renamed_minus_row (tree : s.tree = some (Context.plug c (.region l children)))
    (fixed : ∀ e ∈ s.entries, f e.handle = e.handle) :
    (children.flatMap (Node.minus target new)).map (Node.renamed f) =
      children.flatMap (Node.minus target (f new)) :=
  Forest.renamed_minus target new fun e he =>
    fixed e ((entries_perm [] tree).mem_iff.mpr (List.mem_append_left _ he))

/-- The second space is the first with other handles for its nodes, each its own. Handles to come and the
journal may differ. -/
structure Renamed (f : Handle → Handle) (s s' : Space M) : Prop where
  kind : s'.kind = s.kind
  root : s'.root = s.root
  entropy : s'.entropy = s.entropy
  tree : s'.tree = s.tree.map (Node.renamed f)
  distinct : ∀ n ∈ s.nodes, ∀ n' ∈ s.nodes, f n.handle = f n'.handle → n.handle = n'.handle
  capacity : s'.resources.capacity = s.resources.capacity
  inUse : s'.resources.inUse = s.resources.inUse
  image : s'.resources.image = s.resources.image.map f
  mmu : s'.resources.mmu = s.resources.mmu

theorem handles_of_renamed (tree : s'.tree = s.tree.map (Node.renamed f)) :
    s'.entries.map Entry.handle = (s.entries.map Entry.handle).map f := by
  rw [entries, entries, tree]
  cases s.tree with
  | none => rfl
  | some t => exact t.handles_renamed

theorem Kept.renamed (kept : s.Kept []) (kept' : s'.Kept []) (kind : s'.kind = s.kind)
    (root : s'.root = s.root) (entropy : s'.entropy = s.entropy)
    (tree : s'.tree = s.tree.map (Node.renamed f)) (capacity : s'.resources.capacity = s.resources.capacity)
    (image : s'.resources.image = s.resources.image.map f)
    (mmu : s'.resources.mmu = s.resources.mmu) : s.Renamed f s' := by
  have handles := handles_of_renamed tree
  refine ⟨kind, root, entropy, tree, fun n hn n' hn' same => ?_, capacity, ?_, image, mmu⟩
  · have distinct := kept'.sound.balanced.handles_nodup
    rw [List.nil_append, handles, map_handle_entries] at distinct
    exact List.inj_on_of_nodup_map distinct (List.mem_map_of_mem hn) (List.mem_map_of_mem hn') same
  · have count := congrArg List.length handles
    simp only [List.length_map] at count
    rw [kept'.sound.balanced.inUse_eq, kept.sound.balanced.inUse_eq, List.nil_append, List.nil_append,
      count]

end Space
end RegionTree
