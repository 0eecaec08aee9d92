import GruutMerger.LedgerCalls
import GruutMerger.Resolution
import Mathlib.Data.Set.Function

/-!
# What the ledger is fed

Over any run of pushes and resolutions, the blocks that are handed to the ledger
are those that were ever connected to the last block. None comes twice, and a
block comes after the one it is on top of.
-/
namespace GruutMerger

open ByteText Forest Fallible

variable (env : Env)

namespace Pool

/-- The blocks that a push hands to `procLedgerBlock`, in this order. -/
def handed (accepted : Option Accepted) : List Block := (accepted.toList.flatMap Accepted.forwards).map Forward.block

/-- A run of pushes of blocks of `B` and of resolutions. `passed` are the blocks handed to
`procLedgerBlock` so far, `seen` the pools there have been. -/
inductive Feed (B : Set Block) : Pool → List Block → List Pool → Prop where
  | setPool (id prevId hash prevHash : Bytes) (height time : Nat) :
      Feed B (fresh.setPool id prevId hash prevHash height time) []
        [fresh.setPool id prevId hash prevHash height time]
  | push {p p' : Pool} {passed : List Block} {seen : List Pool} {now : Nat} {block : Block} {r : PushResult}
      {accepted : Option Accepted} (h : Feed B p passed seen) (hin : block ∈ B) (hw : p.NoWrap now block.height)
      (hp : p.push env now block = .ok (r, p', accepted)) :
      Feed B p' (passed ++ handed accepted) (seen ++ [p'])
  | getResolvedBlocks {p : Pool} {passed : List Block} {seen : List Pool} (h : Feed B p passed seen) :
      Feed B (p.resolve env).2.2 passed (seen ++ [(p.resolve env).2.2])

variable {env}

theorem Rises.rooted_of_mem {p : Pool} {bs : List Block} (h : p.Rises bs) {b : Block} (hb : b ∈ bs) : p.Rooted b := by
  obtain ⟨l₁, l₂, rfl⟩ := List.append_of_mem hb
  rw [List.append_cons] at h
  exact ⟨l₁, fun a ha => h.1 a (List.mem_append_left _ ha), (Trail.valid_append.mp h.2).1⟩

theorem Calls.blocks {p : Pool} {block : Block} {layer : List Bytes} {i j : Nat} {rest : List Forward}
    (h : Calls env p block layer i j rest) : rest.map Forward.block =
      (preorder UnresolvedBlock.prevVectorIdx (p.blockPool.drop (i + 1)) j).map fun t => t.2.2.block := by
  have hblocks := congrArg (List.map fun x : Nat × Nat × Block => x.2.2) h.order
  simpa only [List.map_map, Function.comp_def, Forward.place] using hblocks

theorem Calls.nodup {p : Pool} {block : Block} {layer : List Bytes} {i j : Nat} {rest : List Forward}
    (h : Calls env p block layer i j rest) (hok : p.Ok) : (block :: rest.map Forward.block).Nodup := by
  refine List.nodup_cons.mpr ⟨fun hmem => ?_, ?_⟩
  · obtain ⟨f, hf, heq⟩ := List.mem_map.mp hmem
    have hlt := (h.height_lt hok hf).2
    rw [heq] at hlt
    exact Nat.lt_irrefl _ hlt
  · rw [h.blocks]
    exact hok.nodup_below i j

/-- A block below the new one is called for after the block it is on top of. -/
theorem Calls.parent_first {p : Pool} {block : Block} {layer : List Bytes} {i j : Nat} {rest : List Forward}
    (h : Calls env p block layer i j rest) (hok : p.Ok) {b : Block} (hb : b ∈ rest.map Forward.block) :
    ∃ a ∈ blocksOf p.blockPool, Follows a.tip b ∧ [a, b].Sublist (block :: rest.map Forward.block) := by
  obtain ⟨x, hx, rfl⟩ := h.place
  have hmem := hb
  rw [h.blocks] at hmem
  obtain ⟨⟨d, k, e⟩, ht, rfl⟩ := List.mem_map.mp hmem
  have hn := (mem_preorder.mp ht).node_eq
  rw [node_drop] at hn
  cases d with
  | zero =>
    cases mem_preorder.mp ht with
    | top _ hp =>
      exact ⟨x.block, mem_blocksOf_of_node hx, (hok.follows_of_index hx hn).mp hp,
        (List.singleton_sublist.mpr hb).cons_cons _⟩
  | succ d =>
    obtain ⟨k', a, hp, hsub⟩ := preorder_parent ht
    have ha := (mem_preorder.mp (hsub.subset (by simp : (d, k', a) ∈ _))).node_eq
    rw [node_drop] at ha
    refine ⟨a.block, mem_blocksOf_of_node ha, (hok.follows_of_index ha hn).mp hp, ?_⟩
    rw [h.blocks]
    exact (hsub.map fun t => t.2.2.block).cons _

/-- What holds of the blocks handed over so far. -/
structure Fed (B : Set Block) (p : Pool) (passed : List Block) (seen : List Pool) : Prop where
  ok : p.Ok
  ids : IdsDiffer p.blockPool
  current : p ∈ seen
  held : ∀ q ∈ seen, ∀ a ∈ blocksOf q.blockPool, a ∈ B ∧ (a ∈ blocksOf p.blockPool ∨ a.height ≤ p.lastHeight)
  height : ∀ q ∈ seen, q.lastHeight ≤ p.lastHeight
  last : ∀ q ∈ seen, ∀ a ∈ blocksOf q.blockPool, a.tip = p.tip → a ∈ passed
  rooted : ∀ b, b ∈ passed ↔ ∃ q ∈ seen, q.Rooted b
  once : passed.Nodup
  order : ∀ b ∈ passed, ∀ q ∈ seen, ∀ a ∈ blocksOf q.blockPool, Follows a.tip b → [a, b].Sublist passed

variable {B : Set Block} {p p' : Pool} {passed : List Block} {seen : List Pool}

theorem Rooted.mem {b : Block} (h : p.Rooted b) : b ∈ blocksOf p.blockPool := by
  obtain ⟨bs, hbs⟩ := h
  exact hbs.1 b (by simp)

/-- A block handed over, higher than right above the last block, is on top of another one
handed over. -/
theorem Fed.parent (h : Fed B p passed seen) {b : Block} (hb : b ∈ passed) (hhigh : p.lastHeight + 1 < b.height) :
    ∃ q ∈ seen, ∃ c ∈ blocksOf q.blockPool, c ∈ passed ∧ Follows c.tip b := by
  obtain ⟨q, hq, bs, hbs⟩ := (h.rooted b).mp hb
  rcases List.eq_nil_or_concat bs with rfl | ⟨init, c, rfl⟩
  · have hheight := hbs.height
    have hle := h.height q hq
    rw [List.length_nil] at hheight
    omega
  · rw [List.concat_eq_append] at hbs
    have hf := hbs.follows
    rw [tipOf, Trail.finish_concat] at hf
    exact ⟨q, hq, c, hbs.init.1 c (by simp), (h.rooted c).mpr ⟨q, hq, init, hbs.init⟩, hf⟩

/-- Ids tell the block that another one is on top of. -/
theorem eq_of_follows (hB : Set.InjOn Block.blockId B) {a c b : Block} (ha : a ∈ B) (hc : c ∈ B)
    (hfa : Follows a.tip b) (hfc : Follows c.tip b) : a = c := hB ha hc (hfa.1.symm.trans hfc.1)

/-- A step that adds no block and connects none. -/
theorem Fed.keep (h : Fed B p passed seen) (hok : p'.Ok) (hids : IdsDiffer p'.blockPool)
    (hsub : ∀ a ∈ blocksOf p'.blockPool, a ∈ blocksOf p.blockPool)
    (hheld : ∀ a ∈ blocksOf p.blockPool, a ∈ blocksOf p'.blockPool ∨ a.height ≤ p'.lastHeight)
    (hheight : p.lastHeight ≤ p'.lastHeight)
    (hlast : ∀ q ∈ seen, ∀ a ∈ blocksOf q.blockPool, a.tip = p'.tip → a ∈ passed)
    (hrooted : ∀ b, p'.Rooted b → p.Rooted b) : Fed B p' passed (seen ++ [p']) := by
  have hseen : ∀ q ∈ seen ++ [p'], ∀ a ∈ blocksOf q.blockPool, ∃ q ∈ seen, a ∈ blocksOf q.blockPool := by
    intro q hq a ha
    rcases List.mem_append.mp hq with hq | hq
    · exact ⟨q, hq, ha⟩
    · rw [List.mem_singleton.mp hq] at ha
      exact ⟨p, h.current, hsub a ha⟩
  refine ⟨hok, hids, by simp, fun q hq a ha => ?_, fun q hq => ?_, fun q hq a ha htip => ?_, fun b => ?_, h.once,
    fun b hb q hq a ha hf => ?_⟩
  · obtain ⟨q, hq, ha⟩ := hseen q hq a ha
    obtain ⟨hin, hcases⟩ := h.held q hq a ha
    refine ⟨hin, ?_⟩
    rcases hcases with ha | hle
    · exact hheld a ha
    · exact Or.inr (hle.trans hheight)
  · rcases List.mem_append.mp hq with hq | hq
    · exact (h.height q hq).trans hheight
    · rw [List.mem_singleton.mp hq]
  · obtain ⟨q, hq, ha⟩ := hseen q hq a ha
    exact hlast q hq a ha htip
  · rw [h.rooted]
    constructor
    · rintro ⟨q, hq, hr⟩
      exact ⟨q, List.mem_append_left _ hq, hr⟩
    · rintro ⟨q, hq, hr⟩
      rcases List.mem_append.mp hq with hq | hq
      · exact ⟨q, hq, hr⟩
      · rw [List.mem_singleton.mp hq] at hr
        exact ⟨p, h.current, hrooted b hr⟩
  · obtain ⟨q, hq, ha⟩ := hseen q hq a ha
    exact h.order b hb q hq a ha hf

/-- A step that adds a block and hands over what it connects. -/
structure Connects (p p' : Pool) (x : Block) (calls : List Block) : Prop where
  ok : p'.Ok
  ids : IdsDiffer p'.blockPool
  tip : p'.tip = p.tip
  perm : (blocksOf p'.blockPool).Perm (x :: blocksOf p.blockPool)
  high : p.lastHeight < x.height
  mem : ∀ b, b ∈ calls ↔ ∃ bs, p'.Rises (bs ++ [b]) ∧ x ∈ bs ++ [b]
  nodup : calls.Nodup
  order : ∀ b ∈ calls, b ≠ x → ∃ a ∈ blocksOf p'.blockPool, Follows a.tip b ∧ [a, b].Sublist calls

section Connects

variable {x : Block} {calls : List Block}

theorem Connects.lastHeight (hc : Connects p p' x calls) : p'.lastHeight = p.lastHeight :=
  congrArg Tip.height hc.tip

/-- Chains without the new block were there before. -/
theorem Connects.rises (hc : Connects p p' x calls) {bs : List Block} (h : p'.Rises bs) (hx : x ∉ bs) : p.Rises bs := by
  refine h.transfer hc.tip.symm fun b hb hmem => ?_
  rcases List.mem_cons.mp (hc.perm.mem_iff.mp hmem) with rfl | hmem
  · exact absurd hb hx
  · exact hmem

theorem Connects.rooted (hc : Connects p p' x calls) {b : Block} (h : p'.Rooted b) : b ∈ calls ∨ p.Rooted b := by
  obtain ⟨bs, hbs⟩ := h
  by_cases hx : x ∈ bs ++ [b]
  · exact Or.inl ((hc.mem b).mpr ⟨bs, hbs, hx⟩)
  · exact Or.inr ⟨bs, hc.rises hbs hx⟩

variable (h : Fed B p passed seen) (hB : Set.InjOn Block.blockId B) (hc : Connects p p' x calls) (hin : x ∈ B)
  (hnew : ∀ q ∈ seen, x ∉ blocksOf q.blockPool)

include h hc hin in
/-- The blocks there have been after the step. -/
theorem Connects.ever {q : Pool} (hq : q ∈ seen ++ [p']) {a : Block} (ha : a ∈ blocksOf q.blockPool) :
    a ∈ B ∧ (a = x ∨ ∃ q ∈ seen, a ∈ blocksOf q.blockPool) := by
  have hold : ∀ {q : Pool}, q ∈ seen → a ∈ blocksOf q.blockPool →
      a ∈ B ∧ (a = x ∨ ∃ q ∈ seen, a ∈ blocksOf q.blockPool) :=
    fun hq ha => ⟨(h.held _ hq a ha).1, Or.inr ⟨_, hq, ha⟩⟩
  rcases List.mem_append.mp hq with hq | hq
  · exact hold hq ha
  · rw [List.mem_singleton.mp hq] at ha
    rcases List.mem_cons.mp (hc.perm.mem_iff.mp ha) with rfl | ha
    · exact ⟨hin, Or.inl rfl⟩
    · exact hold h.current ha

include h hB hc hin hnew in
/-- No block of the calls was handed over before: going down its chain, neither was the new
one. -/
theorem Connects.not_passed {bs : List Block} {b : Block} (hr : p'.Rises (bs ++ [b])) (hx : x ∈ bs ++ [b]) :
    b ∉ passed := by
  have hself : x ∉ passed := by
    intro hp
    obtain ⟨q, hq, hroot⟩ := (h.rooted x).mp hp
    exact hnew q hq hroot.mem
  induction bs using List.reverseRecOn generalizing b with
  | nil =>
    rw [List.nil_append, List.mem_singleton] at hx
    rwa [← hx]
  | append_singleton bs c ih =>
    intro hb
    rcases List.mem_append.mp hx with hx | hx
    · have hheight := hr.height
      rw [hc.lastHeight, List.length_append, List.length_singleton] at hheight
      obtain ⟨q, hq, a, ha, hpassed, hfa⟩ := h.parent hb (by omega)
      have hfc := hr.follows
      rw [tipOf, Trail.finish_concat] at hfc
      have hcB := (Connects.ever h hc hin (by simp : p' ∈ _) (hr.init.1 c (by simp))).1
      obtain rfl := eq_of_follows hB (h.held q hq a ha).1 hcB hfa hfc
      exact ih hr.init hx hpassed
    · rw [List.mem_singleton.mp hx] at hself
      exact hself hb

include h hB hc hin hnew in
/-- A block of the calls comes after the one it is on top of. -/
theorem Connects.after {b : Block} (hb : b ∈ calls) {q : Pool} (hq : q ∈ seen ++ [p']) {a : Block}
    (ha : a ∈ blocksOf q.blockPool) (hf : Follows a.tip b) : [a, b].Sublist (passed ++ calls) := by
  obtain ⟨haB, hcases⟩ := Connects.ever h hc hin hq ha
  have happend : a ∈ passed → [a, b].Sublist (passed ++ calls) := fun hap =>
    List.Sublist.append (List.singleton_sublist.mpr hap) (List.singleton_sublist.mpr hb)
  by_cases hbx : b = x
  · -- the block below the new one was handed over, or is the last block
    subst hbx
    have hne : a ≠ b := by
      rintro rfl
      exact absurd hf.2.2 (Nat.succ_ne_self _).symm
    obtain ⟨q, hq, ha⟩ := hcases.resolve_left hne
    obtain ⟨bs, hbs, _⟩ := (hc.mem b).mp hb
    rcases List.eq_nil_or_concat bs with rfl | ⟨init, c, rfl⟩
    · have hroot : Follows p'.tip b := hbs.follows
      rw [hc.tip] at hroot
      refine happend (h.last q hq a ha ?_)
      have hheight := hf.2.2.symm.trans hroot.2.2
      simp only [Block.tip, Pool.tip, Tip.mk.injEq]
      exact ⟨hf.1.symm.trans hroot.1, hf.2.1.symm.trans hroot.2.1, Nat.succ.inj hheight⟩
    · rw [List.concat_eq_append] at hbs
      have hfc := hbs.follows
      rw [tipOf, Trail.finish_concat] at hfc
      have hcB := (Connects.ever h hc hin (by simp : p' ∈ _) (hbs.init.1 c (by simp))).1
      obtain rfl := eq_of_follows hB haB hcB hf hfc
      have hrises := hc.rises hbs.init fun hx => absurd (hbs.height_lt hx) (Nat.lt_irrefl _)
      exact happend ((h.rooted a).mpr ⟨p, h.current, init, hrises⟩)
  · obtain ⟨c, hcin, hfc, hsub⟩ := hc.order b hb hbx
    have hcB := (Connects.ever h hc hin (by simp : p' ∈ _) hcin).1
    obtain rfl := eq_of_follows hB haB hcB hf hfc
    exact hsub.trans (List.sublist_append_right _ _)

include h hB hc hin hnew in
theorem Fed.connect : Fed B p' (passed ++ calls) (seen ++ [p']) := by
  refine ⟨hc.ok, hc.ids, by simp, fun q hq a ha => ?_, fun q hq => ?_, fun q hq a ha htip => ?_, fun b => ?_, ?_,
    fun b hb q hq a ha hf => ?_⟩
  · obtain ⟨hin, rfl | ⟨q, hq, ha⟩⟩ := Connects.ever h hc hin hq ha
    · exact ⟨hin, Or.inl (hc.perm.mem_iff.mpr (by simp))⟩
    · refine ⟨hin, ?_⟩
      rw [hc.lastHeight, hc.perm.mem_iff]
      exact (h.held q hq a ha).2.imp_left (List.mem_cons_of_mem _)
  · rw [hc.lastHeight]
    rcases List.mem_append.mp hq with hq | hq
    · exact h.height q hq
    · rw [List.mem_singleton.mp hq, hc.lastHeight]
  · rw [hc.tip] at htip
    obtain ⟨_, rfl | ⟨q, hq, ha⟩⟩ := Connects.ever h hc hin hq ha
    · have hheight : a.height = p.lastHeight := congrArg Tip.height htip
      exact absurd hc.high (by omega)
    · exact List.mem_append_left _ (h.last q hq a ha htip)
  · constructor
    · intro hb
      rcases List.mem_append.mp hb with hb | hb
      · obtain ⟨q, hq, hr⟩ := (h.rooted b).mp hb
        exact ⟨q, List.mem_append_left _ hq, hr⟩
      · obtain ⟨bs, hbs, _⟩ := (hc.mem b).mp hb
        exact ⟨p', by simp, bs, hbs⟩
    · rintro ⟨q, hq, hr⟩
      have hold : ∀ {q : Pool}, q ∈ seen → q.Rooted b → b ∈ passed ++ calls :=
        fun hq hr => List.mem_append_left _ ((h.rooted b).mpr ⟨_, hq, hr⟩)
      rcases List.mem_append.mp hq with hq | hq
      · exact hold hq hr
      · rw [List.mem_singleton.mp hq] at hr
        rcases hc.rooted hr with hb | hr
        · exact List.mem_append_right _ hb
        · exact hold h.current hr
  · refine List.nodup_append.mpr ⟨h.once, hc.nodup, ?_⟩
    rintro b hb _ hcall rfl
    obtain ⟨bs, hbs, hx⟩ := (hc.mem b).mp hcall
    exact Connects.not_passed h hB hc hin hnew hbs hx hb
  · rcases List.mem_append.mp hb with hb | hb
    · obtain ⟨haB, rfl | ⟨q, hq, ha⟩⟩ := Connects.ever h hc hin hq ha
      · -- nothing handed over before is on top of the new block
        have hhigh := hc.high
        have hheight : b.height = a.height + 1 := hf.2.2
        obtain ⟨q, hq, c, hcin, _, hfc⟩ := h.parent hb (by omega)
        obtain rfl := eq_of_follows hB haB (h.held q hq c hcin).1 hf hfc
        exact absurd hcin (hnew q hq)
      · exact (h.order b hb q hq a ha hf).trans (List.sublist_append_left _ _)
    · exact Connects.after h hB hc hin hnew hb hq ha hf

end Connects

theorem Resolves.idsDiffer {ws : List UnresolvedBlock} {ds : List Bytes} (hr : Resolves env p ws ds p')
    (h : IdsDiffer p.blockPool) : IdsDiffer p'.blockPool := by
  induction hr with
  | stop _ => exact h.counted
  | step hw _ ih => exact ih (h.counted.advance hw)

/-- A chain on the new last block goes on from the resolved ones. -/
theorem Resolves.rises {ws : List UnresolvedBlock} {ds : List Bytes} (hr : Resolves env p ws ds p') (h : p.Ok)
    {bs : List Block} (hbs : p'.Rises bs) : p.Rises (ws.map (·.block) ++ bs) := by
  obtain ⟨hlinked, htip⟩ := hr.linked h
  refine ⟨fun b hb => hr.mem_blocksOf ?_, Trail.valid_append.mpr ⟨hlinked, ?_⟩⟩
  · exact (List.mem_append.mp hb).imp_right (hbs.1 b)
  · have hafter := hbs.2
    rwa [htip] at hafter

theorem Resolves.lastHeight_le {ws : List UnresolvedBlock} {ds : List Bytes} (hr : Resolves env p ws ds p')
    (h : p.Ok) : p.lastHeight ≤ p'.lastHeight := by
  obtain ⟨hlinked, htip⟩ := hr.linked h
  have hheight : p'.lastHeight = p.lastHeight + (ws.map (·.block)).length := by
    have := congrArg Tip.height htip
    rwa [hlinked.height_tipOf] at this
  omega

/-- What left the pool is not above the new last block. -/
theorem Resolves.held {ws : List UnresolvedBlock} {ds : List Bytes} (hr : Resolves env p ws ds p') (h : p.Ok)
    {a : Block} (ha : a ∈ blocksOf p.blockPool) : a ∈ blocksOf p'.blockPool ∨ a.height ≤ p'.lastHeight := by
  induction hr with
  | stop _ =>
    rw [blocksOf_counted]
    exact Or.inl ha
  | @step p p' w ws ds hw hrest ih =>
    rw [← blocksOf_counted] at ha
    obtain ⟨hwin, hblocks⟩ := blocksOf_advance hw
    rw [hblocks] at ha
    have hok := h.counted.advance hw
    rcases List.mem_append.mp ha with ha | ha
    · obtain ⟨e, he, rfl⟩ := List.mem_map.mp ha
      have hheight := WellLinked.height_of_mem h.counted he
      have hlast : (p.counted.advance w).lastHeight = w.block.height := rfl
      rw [WellLinked.height_of_mem h.counted hwin, ← hheight] at hlast
      exact Or.inr (hlast.symm.le.trans (hrest.lastHeight_le hok))
    · exact ih hok ha

theorem Fed.resolve (h : Fed B p passed seen) (hB : Set.InjOn Block.blockId B) {ws : List UnresolvedBlock}
    {ds : List Bytes} (hr : Resolves env p ws ds p') : Fed B p' passed (seen ++ [p']) := by
  refine h.keep (hr.ok h.ok) (hr.idsDiffer h.ids) (fun a ha => hr.mem_blocksOf (Or.inr ha))
    (fun a ha => hr.held h.ok ha) (hr.lastHeight_le h.ok) (fun q hq a ha htip => ?_) fun b hb => ?_
  · obtain ⟨hlinked, hlast⟩ := hr.linked h.ok
    rcases List.eq_nil_or_concat (ws.map (·.block)) with hnil | ⟨init, w, hws⟩
    · rw [hnil] at hlast
      exact h.last q hq a ha (htip.trans hlast)
    · -- the last resolved block was connected before
      rw [List.concat_eq_append] at hws
      rw [hws, tipOf, Trail.finish_concat] at hlast
      have hrises : p.Rises (init ++ [w]) := by
        have hnil : p'.Rises [] := ⟨by simp, trivial⟩
        have hall := hr.rises h.ok hnil
        rwa [List.append_nil, hws] at hall
      have hid : a.blockId = w.blockId := congrArg Tip.id (htip.trans hlast)
      have hw : w ∈ B := (h.held p h.current w (hrises.1 w (by simp))).1
      rw [hB (h.held q hq a ha).1 hw hid]
      exact (h.rooted w).mpr ⟨p, h.current, init, hrises⟩
  · obtain ⟨bs, hbs⟩ := hb
    have hall := hr.rises h.ok hbs
    rw [← List.append_assoc] at hall
    exact ⟨_, hall⟩

/-- A push that takes nothing in. -/
theorem Fed.grow (h : Fed B p passed seen) (n : Nat) : Fed B (p.grow n) passed (seen ++ [p.grow n]) := by
  have hblocks := blocksOf_grow p n
  refine h.keep (h.ok.grow n) (by rw [IdsDiffer, hblocks]; exact h.ids) (fun a ha => hblocks ▸ ha)
    (fun a ha => Or.inl (hblocks.symm ▸ ha)) le_rfl (fun q hq a ha htip => h.last q hq a ha htip) ?_
  rintro b ⟨bs, hbs⟩
  exact ⟨bs, rises_grow.mp hbs⟩

/-- A block that a push takes in was never in the pool. -/
theorem Fed.fresh (h : Fed B p passed seen) {block : Block} {i : Nat} (hheight : block.height = p.lastHeight + 1 + i)
    (hsame : ∀ e ∈ p.bin i, e.block.same block = false) : ∀ q ∈ seen, block ∉ blocksOf q.blockPool := by
  intro q hq hmem
  rcases (h.held q hq block hmem).2 with hmem | hle
  · obtain ⟨d, j, e, hn, rfl, hd⟩ := h.ok.node_of_mem hmem
    obtain rfl : d = i := by omega
    have := hsame e (mem_bin_of_node hn)
    simp [Block.same] at this
  · omega

/-- A push that takes a block in. -/
theorem connects_push {now : Nat} {block : Block} {r : PushResult} {a : Accepted} (hok : p.Ok)
    (hids : IdsDiffer p.blockPool) (hw : p.NoWrap now block.height)
    (hp : p.push env now block = .ok (r, p', some a)) (hnew : p.NewId block) :
    Connects p p' block (a.forwards.map Forward.block) := by
  obtain ⟨i, _, hheight, _⟩ := push_accepted hw hp
  obtain ⟨hok', htip, hperm, hcases⟩ := hok.push_calls hw hp hnew
  have hids' : IdsDiffer p'.blockPool := by
    unfold IdsDiffer at hids ⊢
    rw [(hperm.map Block.blockId).nodup_iff, List.map_cons, List.nodup_cons]
    refine ⟨fun hmem => ?_, hids⟩
    obtain ⟨b, hb, heq⟩ := List.mem_map.mp hmem
    exact hnew.2 b hb heq
  rcases hcases with ⟨_, bs, i, j, rest, _, hr, _, hforwards, hcalls⟩ | ⟨_, hforwards, hnone⟩
  · rw [hforwards]
    refine ⟨hok', hids', htip, hperm, by omega, fun b => ?_, hcalls.nodup hok', fun b hb hne => ?_⟩
    · rw [← hcalls.mem_iff hok' ⟨bs, hr⟩]
      simp only [List.map_cons, List.mem_cons, List.mem_map]
    · rw [List.map_cons] at hb ⊢
      exact hcalls.parent_first hok' ((List.mem_cons.mp hb).resolve_left hne)
  · rw [hforwards]
    refine ⟨hok', hids', htip, hperm, by omega, fun b => ?_, List.nodup_nil, by simp⟩
    simp only [List.map_nil, List.not_mem_nil, false_iff]
    rintro ⟨bs, hbs, hmem⟩
    exact hnone (hbs.rooted_of_mem hmem)

/-- A push of a block with an id of its own. -/
theorem Fed.push (h : Fed B p passed seen) (hB : Set.InjOn Block.blockId B) (hne : ∀ b ∈ B, b.blockId ≠ []) {now : Nat}
    {block : Block} {r : PushResult} {accepted : Option Accepted} (hin : block ∈ B) (hw : p.NoWrap now block.height)
    (hp : p.push env now block = .ok (r, p', accepted)) : Fed B p' (passed ++ handed accepted) (seen ++ [p']) := by
  rcases push_cases _ hp with ⟨rfl, _, n, rfl⟩ | ⟨rfl, _, n, rfl⟩ | ⟨_, _, acc, rfl, _⟩
  · simpa [handed] using h.grow n
  · simpa [handed] using h.grow n
  · obtain ⟨i, _, hheight, hsame, _⟩ := push_accepted hw hp
    have hfresh := h.fresh hheight hsame
    have hnew : p.NewId block := by
      refine ⟨hne block hin, fun b hb heq => hfresh p h.current ?_⟩
      rwa [← hB (h.held p h.current b hb).1 hin heq]
    simpa [handed] using Fed.connect h hB (connects_push h.ok h.ids hw hp hnew) hin hfresh

theorem Feed.fed (hB : Set.InjOn Block.blockId B) (hne : ∀ b ∈ B, b.blockId ≠ []) (h : Feed env B p passed seen) :
    Fed B p passed seen := by
  induction h with
  | setPool id prevId hash prevHash height time =>
    have hempty : blocksOf (fresh.setPool id prevId hash prevHash height time).blockPool = [] := rfl
    have hrooted : ∀ b, ¬ (fresh.setPool id prevId hash prevHash height time).Rooted b := by
      intro b hb
      have := hb.mem
      rw [hempty] at this
      cases this
    refine ⟨trivial, by simp [IdsDiffer, hempty], by simp, ?_, by simp, ?_, ?_, List.nodup_nil, by simp⟩
    · simp [hempty]
    · simp [hempty]
    · simp [hrooted]
  | push _ hin hw hp ih => exact ih.push hB hne hin hw hp
  | @getResolvedBlocks p passed seen _ ih => exact ih.resolve hB (resolves_resolve _ p)

/-- In any run on blocks with different ids that are not empty, the blocks handed to the
ledger are those that were ever connected to the last block, each once, and each after the
block of the pool that it is on top of. -/
theorem ledger_fed_once (hB : Set.InjOn Block.blockId B) (hne : ∀ b ∈ B, b.blockId ≠ [])
    (h : Feed env B p passed seen) :
    (∀ b, b ∈ passed ↔ ∃ q ∈ seen, q.Rooted b) ∧ passed.Nodup ∧
      ∀ b ∈ passed, ∀ q ∈ seen, ∀ a ∈ blocksOf q.blockPool, Follows a.tip b → [a, b].Sublist passed := by
  have hfed := h.fed hB hne
  exact ⟨hfed.rooted, hfed.once, hfed.order⟩

end Pool

namespace Sample

/-- The pushes of two rows, by evaluation. -/
theorem feed_pair (rows : List Row) (i j : Nat) (x y : Row) (test : Pool → List Block → Bool) (hg : Good rows)
    (hi : rows[i]? = some x) (hj : rows[j]? = some y)
    (hrun : okAnd (fun s => okAnd (fun t => test t.2.1 (Pool.handed s.2.2 ++ Pool.handed t.2.2))
        (s.2.1.push (world rows) 1000 (y.block j)))
      (initial.chain.pool.push (world rows) 1000 (x.block i)) = true) :
    ∃ p passed seen, Pool.Feed (world rows) {x.block i, y.block j} p passed seen ∧ p ∈ seen ∧ test p passed = true := by
  obtain ⟨⟨r, p, a⟩, hp, hrest⟩ := okAnd_eq_true.mp hrun
  obtain ⟨⟨r', p', a'⟩, hp', htest⟩ := okAnd_eq_true.mp hrest
  have htime : initial.chain.pool.lastTime ≤ 1000 := by decide
  have hsame := Pool.sameLast_push _ hp
  have hfirst : Pool.Feed (world rows) {x.block i, y.block j} p ([] ++ Pool.handed a) ([initial.chain.pool] ++ [p]) :=
    .push (.setPool _ [] _ _ _ _) (by simp) (noWrap_row hg hi (by decide) htime) hp
  have hsecond := Pool.Feed.push hfirst (by simp) (hsame.noWrap (noWrap_row hg hj (by decide) htime)) hp'
  exact ⟨p', _, _, hsecond, by simp, htest⟩

instance (t : Tip) (b : Block) : Decidable (Follows t b) := inferInstanceAs (Decidable (_ ∧ _))

/-- Two blocks on top of each other. The second has an empty id. -/
def emptyIdRows : List Row :=
  [⟨[1], genesisBlockPrevId base, genesisBlockPrevHash base, 1, [good 1], [digestTx]⟩,
   ⟨[], [1], hashOf 0, 2, [good 1], [digestTx]⟩]

end Sample

/-- The second block of a chain comes first, and both are handed over when the first comes. -/
theorem Pool.ledger_fed_once_late : ∃ B p passed seen, Feed (Sample.world Sample.chainRows) B p passed seen ∧
    passed.length = 2 ∧ passed.Nodup ∧ ∀ b, b ∈ passed ↔ ∃ q ∈ seen, q.Rooted b := by
  let x : Sample.Row := ⟨[1], genesisBlockPrevId Sample.base, genesisBlockPrevHash Sample.base, 1,
    [Sample.good 1, Sample.good 2, Sample.good 3], [Sample.digestTx]⟩
  let y : Sample.Row := ⟨[2], [1], Sample.hashOf 0, 2, [Sample.good 1, Sample.good 2, Sample.good 3], [Sample.digestTx]⟩
  obtain ⟨p, passed, seen, hfeed, _, htest⟩ := Sample.feed_pair Sample.chainRows 1 0 y x
    (fun _ passed => decide (passed.length = 2)) (by decide +kernel) rfl rfl (by decide +kernel)
  have hids : Set.InjOn Block.blockId {y.block 1, x.block 0} :=
    Set.injOn_pair.mpr fun heq => absurd heq (by decide +kernel)
  have hne : ∀ b ∈ ({y.block 1, x.block 0} : Set Block), b.blockId ≠ [] := by
    rintro b (rfl | rfl)
    · decide +kernel
    · decide +kernel
  obtain ⟨hrooted, honce, _⟩ := ledger_fed_once hids hne hfeed
  exact ⟨_, p, passed, seen, hfeed, of_decide_eq_true htest, honce, hrooted⟩

/-- A block with an empty id on top of the first block is connected and never handed over. -/
theorem Pool.empty_id_not_fed : ∃ B p passed seen, Set.InjOn Block.blockId B ∧
    Feed (Sample.world Sample.emptyIdRows) B p passed seen ∧ ∃ q ∈ seen, ∃ b, q.Rooted b ∧ b ∉ passed := by
  let x : Sample.Row := ⟨[1], genesisBlockPrevId Sample.base, genesisBlockPrevHash Sample.base, 1, [Sample.good 1],
    [Sample.digestTx]⟩
  let y : Sample.Row := ⟨[], [1], Sample.hashOf 0, 2, [Sample.good 1], [Sample.digestTx]⟩
  obtain ⟨p, passed, seen, hfeed, hin, htest⟩ := Sample.feed_pair Sample.emptyIdRows 0 1 x y
    (fun p passed => (Pool.blocksOf p.blockPool)[0]?.any fun a => (Pool.blocksOf p.blockPool)[1]?.any fun b =>
      decide (Follows p.tip a) && decide (Follows a.tip b) && decide (b.blockId = []) &&
        passed.all fun c => decide (c.blockId ≠ [])) (by decide +kernel) rfl rfl (by decide +kernel)
  have hids : Set.InjOn Block.blockId {x.block 0, y.block 1} :=
    Set.injOn_pair.mpr fun heq => absurd heq (by decide +kernel)
  obtain ⟨a, ha, htest⟩ := (Option.any_eq_true _ _).mp htest
  obtain ⟨b, hb, htest⟩ := (Option.any_eq_true _ _).mp htest
  simp only [Bool.and_eq_true, decide_eq_true_eq, List.all_eq_true] at htest
  obtain ⟨⟨⟨hfirst, hsecond⟩, hempty⟩, hpassed⟩ := htest
  refine ⟨_, p, passed, seen, hids, hfeed, p, hin, b, ⟨[a], ?_, hfirst, hsecond, trivial⟩, fun hmem => ?_⟩
  · simp [List.mem_of_getElem? ha, List.mem_of_getElem? hb]
  · exact hpassed b hmem hempty

end GruutMerger
