import Kairax.Ext2.Tree

/-!
# Consistent images

An image is consistent when every block has at most one owner: the header, a bitmap, a part of an inode table, a path
of an inode, or something outside the model. Owned blocks are marked used. The inodes are given apart from the volume,
since the driver changes an inode in memory before it writes it to its table.
-/

namespace Kairax.Ext2

open Lib Function

inductive Owner
  | header
  | bitmap (r : Resource) (g : Nat)
  | table (g k : Nat)
  | node (n : Nat) (path : List Nat)
  | kept
  deriving DecidableEq

def Owner.Stable : Owner → Prop
  | header => False
  | bitmap _ _ => False
  | _ => True

/-- The inodes in `S` have the blocks that `own` gives them. -/
structure Image (G : Geo) (S : Nat → Prop) (inodes : Nat → Buf) (own : Nat → Option Owner) (inst : Inst) : Prop where
  counted : Counted G inst
  header : ∀ b, G.Header b → own b = some .header
  bitmap : ∀ r g, g < G.totalGroups → own (G.bitmap r g) = some (.bitmap r g)
  table : ∀ n, G.HasInode n → own (G.inodeBlock n) = some (.table (G.inodeGroup n) (G.inodeBlockOffset n))
  node : ∀ n, S n → ∀ q b, IsPath (G.blockSize / 4) q → blockAt (inodes n) inst.disk q = some b →
    own b = some (.node n q)
  used : ∀ b o, own b = some o → b < G.totalGroups * G.blocksPerGroup → G.inUse inst.disk .block b = true

variable {r : Resource} {b c : Nat}

variable {G : Geo} {S : Nat → Prop} {inodes : Nat → Buf} {own : Nat → Option Owner} {inst inst' : Inst}

theorem Counted.of_bitmaps (hcount : Counted G inst) (hgeo : inst'.geo = inst.geo)
    (hgroup : ∀ r g, inst'.groupFree r g = inst.groupFree r g) (hsuper : ∀ r, inst'.superFree r = inst.superFree r)
    (hvalid : G.Valid) (hbitmaps : ∀ r g, g < G.totalGroups → inst'.disk (G.bitmap r g) = inst.disk (G.bitmap r g)) :
    Counted G inst' := by
  have hfree (r : Resource) (g : Nat) (hg : g < G.totalGroups) : G.free inst'.disk r g = G.free inst.disk r g := by
    rw [Geo.free, hbitmaps r g hg, Geo.free]
  refine ⟨hgeo.trans hcount.geo, fun r g hg => ?_, fun r => ?_, fun r g hg => ?_⟩
  · rw [hgroup, hcount.group r g hg, hfree r g hg]
  · rw [hsuper, hcount.super r]
    exact Finset.sum_congr rfl fun g hg => (hfree r g (Finset.mem_range.mp hg)).symm
  · rw [Geo.inUse, hbitmaps .block _ (Geo.div_lt (hvalid.bitmap_lt hg))]
    exact hcount.kept r g hg

theorem inUse_of_bitmaps (hbitmaps : ∀ r g, g < G.totalGroups → inst'.disk (G.bitmap r g) = inst.disk (G.bitmap r g))
    {x : Nat} (hx : x < G.totalGroups * G.perGroup r) : G.inUse inst'.disk r x = G.inUse inst.disk r x := by
  rw [Geo.inUse, hbitmaps r _ (Geo.div_lt hx), Geo.inUse]

section

variable (himage : Image G S inodes own inst)
include himage

theorem Image.blockAt_frame {n : Nat} (hn : S n) {disk' : Nat → Buf}
    (hframe : ∀ c q, own c = some (.node n q) → ¬ IsLeaf q → disk' c = inst.disk c) {q : List Nat}
    (hq : IsPath (G.blockSize / 4) q) : blockAt (inodes n) disk' q = blockAt (inodes n) inst.disk q := by
  apply blockAt_congr (fun s _ => rfl) _ hq
  intro p t j hpath ht
  have hne : p ≠ [] := by
    intro hnil
    rw [hnil] at ht
    cases ht
  rw [words, hframe t p (himage.node n hn p t (hpath.parent hne) ht) hpath.not_leaf, words]

theorem Image.of_frame (hcount : Counted G inst')
    (huse : ∀ b < G.totalGroups * G.blocksPerGroup, G.inUse inst.disk .block b = true →
      G.inUse inst'.disk .block b = true)
    (hframe : ∀ c n q, own c = some (.node n q) → ¬ IsLeaf q → inst'.disk c = inst.disk c) :
    Image G S inodes own inst' := by
  refine ⟨hcount, himage.header, himage.bitmap, himage.table, fun n hn q b hq hb => ?_,
    fun b o ho hlt => huse b hlt (himage.used b o ho hlt)⟩
  rw [himage.blockAt_frame hn (fun c q' => hframe c n q') hq] at hb
  exact himage.node n hn q b hq hb

theorem Image.own_taken (htaken : Taken G inst b inst') : own b = none := by
  cases ho : own b with
  | none => rfl
  | some o =>
    have hused := himage.used b o ho htaken.lt
    rw [htaken.fresh] at hused
    cases hused

theorem Image.disk_taken (htaken : Taken G inst b inst') {o : Owner}
    (ho : own c = some o) (hstable : o.Stable) : inst'.disk c = inst.disk c := by
  apply htaken.frame
  · intro heq
    rw [heq, himage.own_taken htaken] at ho
    cases ho
  · intro hheader
    rw [himage.header c hheader] at ho
    cases ho
    exact hstable
  · intro heq
    have hbitmap : own (G.blockBitmap (b / G.blocksPerGroup)) = some (.bitmap .block (b / G.blocksPerGroup)) :=
      himage.bitmap .block _ (Geo.div_lt (r := .block) htaken.lt)
    rw [heq, hbitmap] at ho
    cases ho
    exact hstable

theorem Image.taken (hvalid : G.Valid) (htaken : Taken G inst b inst') : Image G S inodes own inst' := by
  apply himage.of_frame (htaken.counted hvalid himage.counted)
  · intro c hc hused
    rw [htaken.inUse hvalid hc, hused, ite_self]
  · intro c n q ho _
    exact himage.disk_taken htaken ho trivial

theorem Image.bitmaps_writeBlock (buf : Buf)
    (hc : ∀ r g, own c ≠ some (.bitmap r g)) {g : Nat} (hg : g < G.totalGroups) :
    (inst.writeBlock c buf).disk (G.bitmap r g) = inst.disk (G.bitmap r g) := by
  apply disk_writeBlock_of_ne
  intro heq
  exact hc r g (heq ▸ himage.bitmap r g hg)

theorem Image.counted_writeBlock (hvalid : G.Valid) (buf : Buf)
    (hc : ∀ r g, own c ≠ some (.bitmap r g)) : Counted G (inst.writeBlock c buf) :=
  himage.counted.of_bitmaps rfl (fun _ _ => rfl) (fun _ => rfl) hvalid
    fun _ _ hg => himage.bitmaps_writeBlock buf hc hg

theorem Image.inUse_writeBlock (buf : Buf) (hc : ∀ r g, own c ≠ some (.bitmap r g))
    {x : Nat} (hx : x < G.totalGroups * G.perGroup r) :
    G.inUse (inst.writeBlock c buf).disk r x = G.inUse inst.disk r x :=
  inUse_of_bitmaps (fun _ _ hg => himage.bitmaps_writeBlock buf hc hg) hx

theorem Image.writeBlock (hvalid : G.Valid) (buf : Buf)
    (hc : ∀ r g, own c ≠ some (.bitmap r g)) (hnode : ∀ n q, own c = some (.node n q) → IsLeaf q) :
    Image G S inodes own (inst.writeBlock c buf) := by
  apply himage.of_frame (himage.counted_writeBlock hvalid buf hc)
  · intro b hb hused
    rw [himage.inUse_writeBlock buf hc hb, hused]
  · intro b n q ho hinner
    apply disk_writeBlock_of_ne
    intro heq
    exact hinner (hnode n q (heq ▸ ho))

theorem Image.writeInodeMetadata (hvalid : G.Valid) {n : Nat} (hn : G.HasInode n)
    (ino : Buf) : Image G S inodes own (inst.writeInodeMetadata ino n) := by
  have hgeo := himage.counted.geo
  subst hgeo
  have htable := himage.table n hn
  apply himage.writeBlock hvalid
  · intro r g heq
    rw [htable] at heq
    cases heq
  · intro m q heq
    rw [htable] at heq
    cases heq

end

section Link

variable {n v : Nat} {ino' : Buf} {q₀ : List Nat}

theorem Image.link (himage : Image G S inodes own inst) (hcount : Counted G inst')
    (huse : ∀ b < G.totalGroups * G.blocksPerGroup, G.inUse inst'.disk .block b = G.inUse inst.disk .block b)
    (htree : ∀ q, IsPath (G.blockSize / 4) q →
      blockAt ino' inst'.disk q = if q = q₀ then child v else blockAt (inodes n) inst.disk q)
    (hframe : ∀ c m q, m ≠ n → own c = some (.node m q) → inst'.disk c = inst.disk c) (hn : S n)
    (hfree : own v = none) (hused : v < G.totalGroups * G.blocksPerGroup → G.inUse inst.disk .block v = true) :
    Image G S (update inodes n ino') (update own v (some (.node n q₀))) inst' := by
  have hkeep {b : Nat} {o : Owner} (ho : own b = some o) :
      update own v (some (Owner.node n q₀)) b = some o := by
    rw [update_of_ne, ho]
    intro heq
    rw [heq, hfree] at ho
    cases ho
  refine ⟨hcount, fun b hb => hkeep (himage.header b hb), fun r g hg => hkeep (himage.bitmap r g hg),
    fun m hm => hkeep (himage.table m hm), fun m hm q b hq hb => ?_, fun b o ho hlt => ?_⟩
  · by_cases hmn : m = n
    · subst hmn
      rw [update_self, htree q hq] at hb
      split_ifs at hb with hplace
      · obtain ⟨rfl, -⟩ := child_eq_some_iff.mp hb
        rw [update_self, hplace]
      · exact hkeep (himage.node m hm q b hq hb)
    · rw [update_of_ne hmn, himage.blockAt_frame hm (fun c q' ho _ => hframe c m q' hmn ho) hq] at hb
      exact hkeep (himage.node m hm q b hq hb)
  · rw [huse b hlt]
    by_cases hbv : b = v
    · exact hbv ▸ hused (hbv ▸ hlt)
    · rw [update_of_ne hbv] at ho
      exact himage.used b o ho hlt

end Link

end Kairax.Ext2
