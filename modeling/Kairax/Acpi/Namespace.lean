import Kairax.Errors
import Mathlib.Data.List.Infix
import Mathlib.Data.List.Perm.Subperm
import Kairax.Lib.Intrusive
import Kairax.Lib.NamedTree
import Kairax.Lib.Run

/-!
# The ACPI namespace

The nodes of `acpi_namespace.c` with their names, parents and intrusive lists of children. `acpi_namespace_tree` says
that they stay a tree, and what adding and looking up do in terms of absolute paths. Allocation succeeds.
-/

namespace Kairax.Acpi

open Lib List Option Function

abbrev Seg := BitVec 32

/-- `struct aml_name_string`. -/
structure NameString where
  fromRoot : Bool
  base : Nat
  segments : List Seg
  deriving DecidableEq, Repr

/-- The nodes by number, in the order of their allocation. The root has number 0. -/
structure Namespace where
  count : Nat
  name : Nat → Seg
  object : Nat → Option Nat
  parent : Nat → Option Nat
  link : Nat → Link Nat
  children : Nat → Ends Nat

def root : Nat := 0

/-- The namespace of `acpi_make_root_ns` before its first object. -/
def emptyNs : Namespace :=
  { count := 1, name := fun _ => 0, object := fun _ => none, parent := fun _ => none, link := fun _ => .free,
    children := fun _ => ⟨none, none⟩ }

/-- `none` where the tail of a list that is not empty is `NULL`. -/
def nsNodeIntrusiveListAdd (link : Nat → Link Nat) (list : Ends Nat) (node : Nat) :
    Option ((Nat → Link Nat) × Ends Nat) :=
  if (link node).prev ≠ none ∨ (link node).next ≠ none then some (link, list)
  else
    match list.head, list.tail with
    | none, _ => some (update link node ⟨none, none⟩, ⟨some node, some node⟩)
    | some head, some tail =>
      let link := update link tail { link tail with next := some node }
      some (update link node ⟨some tail, none⟩, ⟨some head, some node⟩)
    | some _, none => none

/-- The loop of `ns_node_find_child_with_name`, `none` if it has not ended. -/
def findFrom (ns : Namespace) (name : Seg) : Nat → Option Nat → Option (Option Nat)
  | 0, _ => none
  | _ + 1, none => some none
  | fuel + 1, some cur =>
    if ns.name cur = name then some (some cur) else findFrom ns name fuel (ns.link cur).next

def nsNodeFindChildWithName (ns : Namespace) (node : Nat) (name : Seg) : Option (Option Nat) :=
  findFrom ns name (ns.count + 1) (ns.children node).head

/-- The loop over the prefixes `^` of `resolve_parent`, which does not look for `NULL`. -/
def goUp (ns : Namespace) : Nat → Option Nat → Option (Option Nat)
  | 0, cur => some cur
  | n + 1, some cur => goUp ns n (ns.parent cur)
  | _ + 1, none => none

/-- The loops over segments, which end at the first that is not found. -/
def descend (ns : Namespace) : List Seg → Option Nat → Option (Option Nat)
  | [], cur => some cur
  | seg :: segs, some cur => do
      match ← nsNodeFindChildWithName ns cur seg with
      | some child => descend ns segs (some child)
      | none => some none
  | _ :: _, none => none

/-- The parent and the name of a new node. The root with no segment leaves the name undefined. -/
def resolveParent (ns : Namespace) (scope : Option Nat) (name : NameString) : Option (Option (Nat × Seg)) :=
  if name.fromRoot ∧ name.segments = [] then none
  else do
    let cur ← goUp ns name.base (if name.fromRoot then some root else scope.or (some root))
    match name.segments.getLast? with
    | none => some none
    | some last => do
        let parent ← descend ns name.segments.dropLast cur
        some (parent.map fun parent => (parent, last))

def newNode (ns : Namespace) (parent : Nat) (name : Seg) (object : Nat) : Option Namespace := do
  let (link, list) ← nsNodeIntrusiveListAdd ns.link (ns.children parent) ns.count
  some
    { count := ns.count + 1
      name := update ns.name ns.count name
      object := update ns.object ns.count (some object)
      parent := update ns.parent ns.count (some parent)
      link := link
      children := update ns.children parent list }

structure Add where
  scope : Option Nat
  name : NameString
  object : Nat

/-- The result, what is stored through `ns_node_out`, and the new namespace. -/
def acpiNsAddNamedObjectEx (ns : Namespace) (a : Add) : Option (Int × Option Nat × Namespace) := do
  match ← resolveParent ns a.scope a.name with
  | none => some (-enoent, none, ns)
  | some (parent, name) =>
    match ← nsNodeFindChildWithName ns parent name with
    | some node => some (0, some node, ns)
    | none => do
        let ns' ← newNode ns parent name a.object
        some (0, some ns.count, ns')

def searchUp (ns : Namespace) (seg : Seg) : Nat → Option Nat → Option (Option Nat)
  | 0, _ => none
  | _ + 1, none => some none
  | fuel + 1, some parent => do
      match ← nsNodeFindChildWithName ns parent seg with
      | some cur => some (some cur)
      | none => searchUp ns seg fuel (ns.parent parent)

/-- The loop over the prefixes `^` of `acpi_ns_get_node`. -/
def levelUp (ns : Namespace) : Nat → Nat → Option Nat
  | 0, cur => some cur
  | n + 1, cur => (ns.parent cur).bind (levelUp ns n)

def acpiNsGetNode (ns : Namespace) (scope : Option Nat) (name : NameString) : Option (Option Nat) :=
  if name.fromRoot ∧ name.segments = [] then some (some root)
  else
    let cur := if name.fromRoot then root else scope.getD root
    match name.fromRoot, name.base, name.segments with
    | false, 0, [seg] => searchUp ns seg (ns.count + 1) (some cur)
    | _, _, _ =>
      match levelUp ns name.base cur with
      | none => some none
      | some cur => if name.segments = [] then some none else descend ns name.segments (some cur)

def absolute (p : List Seg) : NameString := ⟨true, 0, p⟩

def climb (ns : Namespace) : Nat → Nat → List Seg
  | 0, _ => []
  | fuel + 1, c =>
    match ns.parent c with
    | none => []
    | some p => climb ns fuel p ++ [ns.name c]

def pathOf (ns : Namespace) (c : Nat) : List Seg := climb ns ns.count c

def startPath (ns : Namespace) (scope : Option Nat) (name : NameString) : List Seg :=
  if name.fromRoot then [] else (scope.map (pathOf ns)).getD []

/-- The absolute path that a name stands for when an object is added under it. -/
def absPath (ns : Namespace) (a : Add) : List Seg :=
  let start := startPath ns a.scope a.name
  start.take (start.length - a.name.base) ++ a.name.segments

/-- At least one segment, a scope that is there, and no more `^` than levels. -/
structure Proper (ns : Namespace) (a : Add) : Prop where
  segments : a.name.segments ≠ []
  scope : ∀ c, a.scope = some c → c < ns.count
  base : a.name.base ≤ (startPath ns a.scope a.name).length

instance (ns : Namespace) (a : Add) : Decidable (Proper ns a) :=
  decidable_of_iff
    (a.name.segments ≠ [] ∧ (∀ c ∈ a.scope, c < ns.count) ∧
      a.name.base ≤ (startPath ns a.scope a.name).length)
    ⟨fun h => ⟨h.1, h.2.1, h.2.2⟩, fun h => ⟨h.segments, h.scope, h.base⟩⟩

/-- A namespace with the object that was first added under each path. -/
structure History where
  ns : Namespace
  firsts : List Seg → Option Nat

def History.note (h : History) (a : Add) (rc : Int) (ns' : Namespace) : History :=
  let p := absPath h.ns a
  ⟨ns', if rc = 0 then update h.firsts p ((h.firsts p).or (some a.object)) else h.firsts⟩

def History.step (h : History) (a : Add) : Option History := do
  let (rc, _, ns') ← acpiNsAddNamedObjectEx h.ns a
  some (h.note a rc ns')

/-- The lists hold the children, which are a tree. A parent is older than its children. -/
structure Inv (ns : Namespace) (kids : Nat → List Nat) (path : Nat → List Seg) : Prop where
  shared : Shared ns.link ns.children kids
  tree : IsTree kids ns.name root (· < ns.count) path
  parent_iff : ∀ {i c}, c ∈ kids i ↔ c < ns.count ∧ ns.parent c = some i
  order : ∀ {i c}, c ∈ kids i → i < c
  parented : ∀ c < ns.count, c ≠ root → ∃ i, ns.parent c = some i
  object : ∀ c < ns.count, c ≠ root → (ns.object c).isSome

theorem emptyNs_inv : Inv emptyNs (fun _ => []) (fun _ => []) := by
  have hroot : ∀ c < emptyNs.count, c = root := fun c hc => Nat.lt_one_iff.mp hc
  refine ⟨⟨fun _ => isQueue_nil, fun _ => nodup_nil, fun h => absurd h not_mem_nil, fun _ _ => rfl⟩,
    ⟨Nat.one_pos, rfl, fun h => absurd h not_mem_nil, fun h => absurd h not_mem_nil,
      fun h => absurd h not_mem_nil, fun {c} hc => ?_⟩,
    fun {i c} => iff_of_false not_mem_nil fun h => absurd h.2 (some_ne_none i).symm,
    fun h => absurd h not_mem_nil, fun c hc hne => absurd (hroot c hc) hne,
    fun c hc hne => absurd (hroot c hc) hne⟩
  rw [hroot c hc]
  rfl

variable {c : Nat} {a : Add} {h : History} {kids : Nat → List Nat} {path : Nat → List Seg}

namespace Inv

variable {ns : Namespace}

section

variable (hinv : Inv ns kids path)
include hinv

theorem root_lt : root < ns.count := hinv.tree.root_alive

theorem parent_root : ns.parent root = none := by
  cases hparent : ns.parent root with
  | none => rfl
  | some i => exact absurd (hinv.order (hinv.parent_iff.mpr ⟨hinv.root_lt, hparent⟩)) (Nat.not_lt_zero i)

theorem exists_parent (hc : c < ns.count) (hne : c ≠ root) :
    ∃ i, ns.parent c = some i ∧ i < ns.count ∧ i < c ∧ path c = path i ++ [ns.name c] := by
  obtain ⟨i, hi⟩ := hinv.parented c hc hne
  have hmem := hinv.parent_iff.mpr ⟨hc, hi⟩
  exact ⟨i, hi, (hinv.tree.alive_of_kid hmem).1, hinv.order hmem, hinv.tree.path_kid hmem⟩

theorem pathOf_eq (hc : c < ns.count) : pathOf ns c = path c := by
  have hclimb (fuel : Nat) : ∀ c < ns.count, c < fuel → climb ns fuel c = path c := by
    induction fuel with
    | zero => exact fun c _ hlt => absurd hlt (Nat.not_lt_zero c)
    | succ fuel ih =>
      intro c hc hlt
      by_cases hroot : c = root
      · rw [hroot, climb, hinv.parent_root, hinv.tree.root_path]
      · obtain ⟨i, hi, hicount, hlt', hpath⟩ := hinv.exists_parent hc hroot
        rw [climb, hi, hpath]
        exact congrArg (· ++ [ns.name c]) (ih i hicount (by omega))
  exact hclimb ns.count c hc hc

end

theorem findFrom_eq {ends : Ends Nat} (seg : Seg) (a b : List Nat) (hqueue : IsQueue ns.link ends (a ++ b))
    (fuel : Nat) (hfuel : b.length < fuel) :
    findFrom ns seg fuel (headOr some none b) = some (b.find? fun d => ns.name d = seg) := by
  induction b generalizing a fuel with
  | nil =>
    obtain ⟨fuel, rfl⟩ := Nat.exists_eq_add_of_lt hfuel
    rfl
  | cons d b ih =>
    rw [length_cons] at hfuel
    obtain ⟨fuel, rfl⟩ : ∃ k, fuel = k + 1 := ⟨fuel - 1, by omega⟩
    rw [headOr, findFrom, find?_cons]
    split_ifs with hname
    · rw [decide_eq_true hname]
    · rw [decide_eq_false hname, hqueue.link_eq]
      exact ih (a ++ [d]) (by rwa [append_assoc]) fuel (by omega)

section

variable (hinv : Inv ns kids path)
include hinv

theorem length_kids_le (i : Nat) : (kids i).length ≤ ns.count := by
  have hsub : kids i ⊆ range ns.count := by
    intro c hc
    exact mem_range.mpr (hinv.parent_iff.mp hc).1
  have hle := (subperm_of_subset (hinv.shared.nodup i) hsub).length_le
  rwa [length_range] at hle

theorem find_eq (i : Nat) (seg : Seg) : nsNodeFindChildWithName ns i seg = some (child kids ns.name i seg) := by
  have hqueue := hinv.shared.queue i
  rw [nsNodeFindChildWithName, hqueue.1]
  exact findFrom_eq seg [] (kids i) hqueue _ (Nat.lt_succ_of_le (hinv.length_kids_le i))

theorem descend_eq (segs : List Seg) (c : Nat) : descend ns segs (some c) = some (locate kids ns.name c segs) := by
  induction segs generalizing c with
  | nil => rfl
  | cons seg segs ih =>
    rw [descend, hinv.find_eq, locate, foldlM_cons]
    cases child kids ns.name c seg with
    | none => rfl
    | some d => exact ih d

theorem up_eq (n : Nat) (hc : c < ns.count) (hn : n ≤ (path c).length) :
    ∃ d < ns.count, goUp ns n (some c) = some (some d) ∧ levelUp ns n c = some d ∧
      path d = (path c).take ((path c).length - n) := by
  induction n generalizing c with
  | zero => exact ⟨c, hc, rfl, rfl, by rw [Nat.sub_zero, take_length]⟩
  | succ n ih =>
    have hroot : c ≠ root := by
      rintro rfl
      rw [hinv.tree.root_path] at hn
      exact absurd hn (Nat.not_succ_le_zero n)
    obtain ⟨i, hi, hicount, -, hpath⟩ := hinv.exists_parent hc hroot
    have hlength : (path c).length = (path i).length + 1 := by
      rw [hpath, length_append]
      rfl
    obtain ⟨d, hd, hgo, hlevel, htake⟩ := ih hicount (by omega)
    refine ⟨d, hd, ?_, ?_, ?_⟩
    · rw [goUp, hi, hgo]
    · rw [levelUp, hi, bind_some, hlevel]
    · rw [htake, hlength, hpath, take_append_of_le_length (by omega), Nat.add_sub_add_right]

theorem searchUp_eq (seg : Seg) (fuel : Nat) (hc : c < ns.count) (hfuel : c + 1 < fuel) :
    searchUp ns seg fuel (some c) =
      some ((path c).inits.reverse.findSome? fun q => locate kids ns.name root (q ++ [seg])) := by
  induction fuel generalizing c with
  | zero => exact absurd hfuel (Nat.not_lt_zero _)
  | succ fuel ih =>
    rw [searchUp, hinv.find_eq]
    by_cases hroot : c = root
    · rw [hroot, hinv.tree.root_path, hinv.parent_root]
      obtain ⟨k, rfl⟩ : ∃ k, fuel = k + 1 := ⟨fuel - 1, by omega⟩
      have hchild : locate kids ns.name root ([] ++ [seg]) = child kids ns.name root seg :=
        locate_singleton kids ns.name root seg
      rw [show ([] : List Seg).inits = [[]] from rfl, reverse_singleton, findSome?_cons, hchild]
      cases child kids ns.name root seg with
      | none | some d => rfl
    · obtain ⟨i, hi, hicount, hlt, hpath⟩ := hinv.exists_parent hc hroot
      have hinits : (path c).inits.reverse = path c :: (path i).inits.reverse := by
        rw [hpath]
        simp
      rw [hinits, findSome?_cons, hinv.tree.locate_concat hc, hi]
      cases child kids ns.name c seg with
      | none => exact ih hicount (by omega)
      | some d => rfl

theorem getNode_absolute (p : List Seg) : acpiNsGetNode ns none (absolute p) = some (locate kids ns.name root p) := by
  rw [acpiNsGetNode, absolute]
  cases p with
  | nil => rfl
  | cons seg p =>
    exact hinv.descend_eq (seg :: p) root

theorem getNode_single (hc : c < ns.count) (seg : Seg) :
    acpiNsGetNode ns (some c) ⟨false, 0, [seg]⟩ =
      some ((path c).inits.reverse.findSome? fun q => locate kids ns.name root (q ++ [seg])) := by
  exact hinv.searchUp_eq (c := c) seg (ns.count + 1) hc (by omega)

end

theorem start_eq (hinv : Inv ns kids path) (hscope : ∀ c, a.scope = some c → c < ns.count) :
    ∃ c < ns.count, (if a.name.fromRoot then some root else a.scope.or (some root)) = some c ∧
      startPath ns a.scope a.name = path c := by
  rw [startPath]
  by_cases hroot : a.name.fromRoot = true
  · exact ⟨root, hinv.root_lt, if_pos hroot, by rw [if_pos hroot, hinv.tree.root_path]⟩
  · rw [if_neg hroot, if_neg hroot]
    cases hs : a.scope with
    | none => exact ⟨root, hinv.root_lt, rfl, hinv.tree.root_path.symm⟩
    | some c => exact ⟨c, hscope c hs, rfl, hinv.pathOf_eq (hscope c hs)⟩

theorem resolveParent_eq (hinv : Inv ns kids path) (hproper : Proper ns a) :
    resolveParent ns a.scope a.name =
      some ((locate kids ns.name root (absPath ns a).dropLast).map fun i =>
        (i, a.name.segments.getLast hproper.segments)) := by
  obtain ⟨c, hc, hcur, hstart⟩ := hinv.start_eq hproper.scope
  have hbase := hproper.base
  rw [hstart] at hbase
  obtain ⟨d, hd, hgo, -, htake⟩ := hinv.up_eq a.name.base hc hbase
  have habs : (absPath ns a).dropLast = path d ++ a.name.segments.dropLast := by
    rw [absPath, hstart, htake, dropLast_append_of_ne_nil hproper.segments]
  rw [resolveParent, if_neg fun h => hproper.segments h.2, hcur, hgo, habs, locate_append, hinv.tree.reached hd,
    getLast?_eq_some_getLast hproper.segments]
  simp only [bind_eq_bind, bind_some, hinv.descend_eq]

theorem absPath_eq (hproper : Proper ns a) :
    absPath ns a = (absPath ns a).dropLast ++ [a.name.segments.getLast hproper.segments] := by
  have hne : absPath ns a ≠ [] := by
    exact append_ne_nil_of_right_ne_nil _ hproper.segments
  have hlast : (absPath ns a).getLast hne = a.name.segments.getLast hproper.segments := by
    exact getLast_append_of_right_ne_nil _ _ hproper.segments
  rw [← hlast, dropLast_append_getLast hne]

theorem listAdd_eq (hinv : Inv ns kids path) (i : Nat) :
    ∃ link', nsNodeIntrusiveListAdd ns.link (ns.children i) ns.count =
        some (link', ⟨(ns.children i).head.or (some ns.count), some ns.count⟩) ∧
      link' ns.count = ⟨(ns.children i).tail, none⟩ ∧
      (∀ x, (ns.children i).tail = some x → link' x = { ns.link x with next := some ns.count }) ∧
      ∀ x, x ≠ ns.count → (ns.children i).tail ≠ some x → link' x = ns.link x := by
  have hqueue := hinv.shared.queue i
  have hnew : ∀ j, ns.count ∉ kids j := fun j hmem => lt_irrefl _ (hinv.parent_iff.mp hmem).1
  have hfree : ns.link ns.count = .free := hinv.shared.free _ hnew
  have hunlinked : ¬ ((ns.link ns.count).prev ≠ none ∨ (ns.link ns.count).next ≠ none) := by
    rw [hfree]
    simp [Link.free]
  rw [nsNodeIntrusiveListAdd, if_neg hunlinked]
  cases hhead : (ns.children i).head with
  | none =>
    have htail : (ns.children i).tail = none := hqueue.tail_eq_none.mpr (hqueue.head_eq_none.mp hhead)
    refine ⟨_, rfl, ?_, fun x hx => ?_, fun x hx _ => update_of_ne hx _ _⟩
    · rw [update_self, htail]
    · rw [htail] at hx
      cases hx
  | some head =>
    have hnonempty : kids i ≠ [] := fun hempty => by
      rw [hqueue.head_eq_none.mpr hempty] at hhead
      cases hhead
    cases htail : (ns.children i).tail with
    | none => exact absurd (hqueue.tail_eq_none.mp htail) hnonempty
    | some tail =>
      have hne : tail ≠ ns.count := by
        rintro rfl
        exact hnew i (hinv.shared.mem_tail htail)
      refine ⟨_, rfl, update_self _ _ _, fun x hx => ?_, fun x hx hxt => ?_⟩
      · cases hx
        rw [update_of_ne hne, update_self]
      · rw [update_of_ne hx, update_of_ne fun h => hxt (congrArg some h.symm)]

theorem newNode_eq (hinv : Inv ns kids path) {i : Nat} (hi : i < ns.count) {seg : Seg}
    (hfree : child kids ns.name i seg = none) (object : Nat) :
    ∃ ns', newNode ns i seg object = some ns' ∧ ns'.count = ns.count + 1 ∧
      ns'.object = update ns.object ns.count (some object) ∧
      Inv ns' (update kids i (kids i ++ [ns.count])) (update path ns.count (path i ++ [seg])) := by
  obtain ⟨link', hadd, hself, hlast, hkeep⟩ := hinv.listAdd_eq i
  have hnew : ∀ j, ns.count ∉ kids j := fun j hmem => lt_irrefl _ (hinv.parent_iff.mp hmem).1
  have hlt : ∀ {c}, c < ns.count + 1 ↔ c < ns.count ∨ c = ns.count := Nat.lt_succ_iff_lt_or_eq
  refine ⟨_, by rw [newNode, hadd]; rfl, rfl, rfl, ?_⟩
  refine ⟨hinv.shared.concat hnew i hself hlast hkeep, ?_, fun {j c} => ?_, fun {j c} hc => ?_, fun c hc hne => ?_,
    fun c hc hne => ?_⟩
  · have htree := hinv.tree.addLeaf hi (lt_irrefl ns.count) hfree
    have halive : (fun c => c < ns.count ∨ c = ns.count) = (· < ns.count + 1) := by
      funext c
      rw [hlt]
    rw [halive] at htree
    exact htree
  · change _ ↔ c < ns.count + 1 ∧ update ns.parent ns.count (some i) c = some j
    rw [mem_update_concat, hlt]
    by_cases hc : c = ns.count
    · subst hc
      rw [update_self, or_iff_right (hnew j), and_iff_left rfl, and_iff_right (.inr rfl), some_inj, eq_comm]
    · rw [update_of_ne hc, or_iff_left (fun h => hc h.2), or_iff_left hc]
      exact hinv.parent_iff
  · obtain hc | ⟨rfl, rfl⟩ := mem_update_concat.mp hc
    · exact hinv.order hc
    · exact hi
  · change ∃ j, update ns.parent ns.count (some i) c = some j
    obtain hc | rfl := hlt.mp hc
    · rw [update_of_ne hc.ne]
      exact hinv.parented c hc hne
    · exact ⟨i, update_self _ _ _⟩
  · change (update ns.object ns.count (some object) c).isSome
    obtain hc | rfl := hlt.mp hc
    · rw [update_of_ne hc.ne]
      exact hinv.object c hc hne
    · rw [update_self]
      rfl

end Inv

/-- The object of each path is the one that was added under it first. -/
structure History.Sound (h : History) (kids : Nat → List Nat) (path : Nat → List Seg) : Prop
    extends Inv h.ns kids path where
  firsts : ∀ p, p ≠ [] → h.firsts p = (locate kids h.ns.name root p).bind h.ns.object

theorem History.Sound.addNode (hsound : h.Sound kids path) {i : Nat} {seg : Seg} (hi : i < h.ns.count)
    (habs : absPath h.ns a = path i ++ [seg]) (hfree : child kids h.ns.name i seg = none) :
    ∃ ns' kids' path', newNode h.ns i seg a.object = some ns' ∧ (h.note a 0 ns').Sound kids' path' ∧
      (∀ p c, locate kids h.ns.name root p = some c →
        locate kids' ns'.name root p = some c ∧ ns'.object c = h.ns.object c) ∧
      ∃ c, locate kids' ns'.name root (absPath h.ns a) = some c := by
  have hinv := hsound.toInv
  obtain ⟨ns', hnew, hcount, hobject, hinv'⟩ := hinv.newNode_eq hi hfree a.object
  obtain ⟨kids', hkids⟩ : ∃ kids', update kids i (kids i ++ [h.ns.count]) = kids' := ⟨_, rfl⟩
  rw [← habs, hkids] at hinv'
  have hiff : ∀ p c, locate kids' ns'.name root p = some c ↔
      locate kids h.ns.name root p = some c ∨ c = h.ns.count ∧ p = absPath h.ns a := by
    intro p c
    rw [hinv'.tree.locate_iff, hinv.tree.locate_iff, hcount, Nat.lt_succ_iff_lt_or_eq]
    by_cases hc : c = h.ns.count
    · rw [hc, update_self, and_iff_right (.inr rfl), and_iff_right rfl,
        or_iff_right fun hlt => lt_irrefl _ hlt.1, eq_comm]
    · rw [update_of_ne hc, or_iff_left hc, or_iff_left fun hleaf => hc hleaf.1]
  have hleaf : locate kids' ns'.name root (absPath h.ns a) = some h.ns.count := (hiff _ _).mpr (.inr ⟨rfl, rfl⟩)
  have hkeep : ∀ p c, locate kids h.ns.name root p = some c →
      locate kids' ns'.name root p = some c ∧ ns'.object c = h.ns.object c := by
    intro p c hc
    have hlt := (hinv.tree.locate_iff.mp hc).1
    exact ⟨(hiff p c).mpr (.inl hc), by rw [hobject, update_of_ne hlt.ne]⟩
  refine ⟨ns', kids', _, hnew, ⟨hinv', fun p hp => ?_⟩, hkeep, h.ns.count, hleaf⟩
  change update h.firsts (absPath h.ns a) _ p = (locate kids' ns'.name root p).bind ns'.object
  by_cases heq : p = absPath h.ns a
  · have hnone : h.firsts (absPath h.ns a) = none := by
      rw [hsound.firsts _ (heq ▸ hp), habs, hinv.tree.locate_concat hi, hfree]
      rfl
    rw [heq, update_self, hnone, hleaf, bind_some, hobject, update_self]
    rfl
  · rw [update_of_ne heq, hsound.firsts p hp]
    cases hp' : locate kids' ns'.name root p with
    | none =>
      cases hold : locate kids h.ns.name root p with
      | none => rfl
      | some c => exact absurd ((hkeep p c hold).1.symm.trans hp') (some_ne_none c)
    | some c =>
      have hold := ((hiff p c).mp hp').resolve_right fun hnew' => heq hnew'.2
      rw [hold, bind_some, bind_some, (hkeep p c hold).2]

theorem History.Sound.add (hsound : h.Sound kids path) (hproper : Proper h.ns a) :
    ∃ rc out ns' kids' path', acpiNsAddNamedObjectEx h.ns a = some (rc, out, ns') ∧
      (rc = 0 ↔ ∃ i, locate kids h.ns.name root (absPath h.ns a).dropLast = some i) ∧
      (h.note a rc ns').Sound kids' path' ∧
      (∀ p c, locate kids h.ns.name root p = some c →
        locate kids' ns'.name root p = some c ∧ ns'.object c = h.ns.object c) ∧
      (rc = 0 → ∃ c, locate kids' ns'.name root (absPath h.ns a) = some c) := by
  have hinv := hsound.toInv
  have hresolve := hinv.resolveParent_eq hproper
  have habs := Inv.absPath_eq hproper
  obtain ⟨seg, hseg⟩ : ∃ seg, a.name.segments.getLast hproper.segments = seg := ⟨_, rfl⟩
  rw [hseg] at hresolve habs
  have hne : absPath h.ns a ≠ [] := by
    rw [habs]
    exact append_ne_nil_of_right_ne_nil _ (cons_ne_nil _ _)
  rw [acpiNsAddNamedObjectEx, hresolve]
  cases hparent : locate kids h.ns.name root (absPath h.ns a).dropLast with
  | none =>
    have hrc : -enoent ≠ 0 := by decide
    refine ⟨-enoent, none, h.ns, kids, path, rfl, ?_, ?_, fun p c hc => ⟨hc, rfl⟩, fun hzero => absurd hzero hrc⟩
    · exact iff_of_false hrc fun ⟨i, hi⟩ => some_ne_none i hi.symm
    · exact hsound
  | some i =>
    obtain ⟨hi, hpath⟩ := hinv.tree.locate_iff.mp hparent
    rw [← hpath] at habs
    simp only [map_some, bind_eq_bind, bind_some, hinv.find_eq]
    cases hchild : child kids h.ns.name i seg with
    | some c =>
      have hlocate : locate kids h.ns.name root (absPath h.ns a) = some c := by
        rw [habs, hinv.tree.locate_concat hi, hchild]
      refine ⟨0, some c, h.ns, kids, path, rfl, iff_of_true rfl ⟨i, rfl⟩, ?_, fun p c hc => ⟨hc, rfl⟩,
        fun _ => ⟨c, hlocate⟩⟩
      -- the object that is there stays the first
      obtain ⟨hc, hcpath⟩ := hinv.tree.locate_iff.mp hlocate
      have hcroot : c ≠ root := by
        rintro rfl
        exact hne (hcpath.symm.trans hinv.tree.root_path)
      have hobject := hinv.object c hc hcroot
      have hfirst := hsound.firsts _ hne
      rw [hlocate, bind_some] at hfirst
      rw [← hfirst] at hobject
      rw [History.note, or_of_isSome hobject, update_eq_self]
      exact hsound
    | none =>
      obtain ⟨ns', kids', path', hnew, hsound', hkeep, hleaf⟩ := hsound.addNode hi habs hchild
      refine ⟨0, some h.ns.count, ns', kids', path', ?_, iff_of_true rfl ⟨i, rfl⟩, hsound', hkeep, fun _ => hleaf⟩
      simp only [hnew, bind_some]

def emptyHistory : History := ⟨emptyNs, fun _ => none⟩

theorem emptyHistory_sound : emptyHistory.Sound (fun _ => []) (fun _ => []) := by
  refine ⟨emptyNs_inv, fun p hp => ?_⟩
  cases p with
  | nil => exact absurd rfl hp
  | cons seg p => rfl

theorem exists_sound {adds : List Add} (hrun : Run History.step (fun h a => Proper h.ns a) emptyHistory adds h) :
    ∃ kids path, h.Sound kids path := by
  refine hrun.invariant (fun h => ∃ kids path, h.Sound kids path) (fun h a h' hinv hproper hstep => ?_)
    ⟨_, _, emptyHistory_sound⟩
  obtain ⟨kids, path, hsound⟩ := hinv
  obtain ⟨rc, out, ns', kids', path', hadd, -, hsound', -⟩ := hsound.add hproper
  rw [History.step, hadd] at hstep
  cases hstep
  exact ⟨kids', path', hsound'⟩

def lookup (ns : Namespace) (p : List Seg) : Option Nat := (acpiNsGetNode ns none (absolute p)).join

/-- The nodes are a tree: one path leads to each, and siblings differ in their names. -/
structure IsNamespace (ns : Namespace) : Prop where
  total : ∀ p, ∃ r, acpiNsGetNode ns none (absolute p) = some r
  path : ∀ c < ns.count, ∃! p, lookup ns p = some c
  siblings : ∀ c < ns.count, ∀ d < ns.count, c ≠ d → ns.parent c ≠ none → ns.parent c = ns.parent d →
    ns.name c ≠ ns.name d

/-- After any additions of proper names the nodes are a tree. One more succeeds exactly if the path of its parent leads
to a node, paths keep their nodes and objects, and a name of one segment is found in the nearest enclosing scope. -/
theorem acpi_namespace_tree {adds : List Add} {h : History}
    (hrun : Run History.step (fun h a => Proper h.ns a) emptyHistory adds h) :
    IsNamespace h.ns ∧
      (∀ a, Proper h.ns a → ∃ rc out ns', acpiNsAddNamedObjectEx h.ns a = some (rc, out, ns') ∧
        (rc = 0 ↔ ∃ i, lookup h.ns (absPath h.ns a).dropLast = some i) ∧
        (∀ p c, lookup h.ns p = some c → lookup ns' p = some c ∧ ns'.object c = h.ns.object c) ∧
        (rc = 0 → ∃ c, lookup ns' (absPath h.ns a) = some c ∧
          ns'.object c = (h.firsts (absPath h.ns a)).or (some a.object))) ∧
      ∀ c < h.ns.count, ∀ seg, acpiNsGetNode h.ns (some c) ⟨false, 0, [seg]⟩ =
        some ((pathOf h.ns c).inits.reverse.findSome? fun q => lookup h.ns (q ++ [seg])) := by
  obtain ⟨kids, path, hsound⟩ := exists_sound hrun
  have hinv := hsound.toInv
  have hlookup {ns : Namespace} {kids path} (hinv : Inv ns kids path) (p : List Seg) :
      lookup ns p = locate kids ns.name root p := by
    rw [lookup, hinv.getNode_absolute]
    rfl
  refine ⟨⟨fun p => ⟨_, hinv.getNode_absolute p⟩, fun c hc => ?_, fun c hc d hd hne hparent hsame hname => ?_⟩,
    fun a hproper => ?_, fun c hc seg => ?_⟩
  · refine ⟨path c, (hlookup hinv _).trans (hinv.tree.reached hc), fun p hp => ?_⟩
    exact (hinv.tree.locate_iff.mp ((hlookup hinv p).symm.trans hp)).2.symm
  · obtain ⟨i, hi⟩ := ne_none_iff_exists'.mp hparent
    exact hne (hinv.tree.distinct (hinv.parent_iff.mpr ⟨hc, hi⟩) (hinv.parent_iff.mpr ⟨hd, hsame.symm.trans hi⟩) hname)
  · obtain ⟨rc, out, ns', kids', path', hadd, hrc, hsound', hkeep, hleaf⟩ := hsound.add hproper
    have hinv' : Inv ns' kids' path' := hsound'.toInv
    refine ⟨rc, out, ns', hadd, by simpa only [hlookup hinv] using hrc, fun p c hc => ?_, fun hzero => ?_⟩
    · rw [hlookup hinv] at hc
      rw [hlookup hinv']
      exact hkeep p c hc
    · obtain ⟨c, hc⟩ := hleaf hzero
      refine ⟨c, (hlookup hinv' _).trans hc, ?_⟩
      have hne : absPath h.ns a ≠ [] := by
        rw [Inv.absPath_eq hproper]
        exact append_ne_nil_of_right_ne_nil _ (cons_ne_nil _ _)
      have hfirst : (h.note a rc ns').firsts (absPath h.ns a) = (some c).bind ns'.object := hc ▸ hsound'.firsts _ hne
      rw [hzero] at hfirst
      exact hfirst.symm.trans (update_self _ _ _)
  · rw [hinv.getNode_single hc, hinv.pathOf_eq hc]
    simp only [hlookup hinv]

/-- The objects `\_SB_`, `PCI0` in its scope, and `^_TZ_` there. -/
def bootAdds : List Add :=
  [⟨none, ⟨true, 0, [0x5F42535F]⟩, 10⟩, ⟨some 1, ⟨false, 0, [0x30494350]⟩, 11⟩, ⟨some 1, ⟨false, 1, [0x5F5A545F]⟩, 12⟩]

theorem acpi_namespace_tree_boot :
    ∃ h, Run History.step (fun h a => Proper h.ns a) emptyHistory bootAdds h ∧ IsNamespace h.ns ∧
      acpiNsGetNode h.ns (some 2) ⟨false, 0, [0x5F5A545F]⟩ =
        some ((pathOf h.ns 2).inits.reverse.findSome? fun q => lookup h.ns (q ++ [0x5F5A545F])) ∧
      (pathOf h.ns 2).inits.reverse.findSome? (fun q => lookup h.ns (q ++ [0x5F5A545F])) = some 3 := by
  obtain ⟨h, hrun, hcount, hfound⟩ : ∃ h, Run History.step (fun h a => Proper h.ns a) emptyHistory bootAdds h ∧
      (2 < h.ns.count ∧
        (pathOf h.ns 2).inits.reverse.findSome? (fun q => lookup h.ns (q ++ [0x5F5A545F])) = some 3) :=
    exists_run_of_replay (by decide)
  obtain ⟨hnamespace, -, hsingle⟩ := acpi_namespace_tree hrun
  exact ⟨h, hrun, hnamespace, hsingle 2 hcount _, hfound⟩

end Kairax.Acpi
