import Gem5.Proofs.ChunkGenerator
import Gem5.Proofs.DmaAtomic

/-!
# The chunks and the header of a DMA

The loop over the chunk generator gives the pieces of the region, and the packets made on the way are
the packets of the action. Only the first chunk is reported as head, so a DMA that has a chunk has one
header packet.
-/

namespace Gem5

open Machine Pieces List

namespace DmaAction

variable {a : DmaAction} {c id j : ℕ}

/-- The packets that are created while the generator goes through the chunks. -/
def created (a : DmaAction) (id j : ℕ) (cs : List ChunkGenerator) : List Packet :=
  cs.map fun g => (DmaReqState.create a id g).createPacket j

theorem created_eq {cs : List ChunkGenerator}
    (hcs : (cs.map fun g => (g.addr, g.size)) = pieces c a.addr a.size)
    (hat : ∀ g ∈ cs, ∃ d, g.At c a.addr a.size d) : a.created id j cs = a.packets c id j := by
  rw [packets, ← hcs, map_map, created]
  refine map_congr_left fun g hg => ?_
  obtain ⟨d, hd⟩ := hat g hg
  have haddr : g.addr = a.addr + d := hd.curAddr
  rw [Function.comp_apply, haddr]
  exact DmaPort.createPacket_during (n := 0) hd

theorem header_packets (hc : 0 < c) (hsize : 0 < a.size) (hd : a.isDdio = true) :
    (a.packets c id j).filter (·.isDdioHeader) =
      [a.chunk id j (a.addr, first c a.addr a.size)] := by
  have hpos := first_pos (a := a.addr) hc hsize
  rw [packets, pieces_eq hc hsize, map_cons, filter_cons_of_pos (by simp [chunk, hd]),
    filter_eq_nil_iff.2]
  intro p hp
  obtain ⟨q, hq, rfl⟩ := mem_map.1 hp
  have hle := le_of_mem_pieces hc _ _ q hq
  have hne : q.1 ≠ a.addr := by omega
  simp [chunk, hne]

theorem le_of_mem_packets (hc : 0 < c) : ∀ p ∈ a.packets c id j, a.addr ≤ p.addr := by
  intro p hp
  obtain ⟨q, hq, rfl⟩ := mem_map.1 hp
  exact le_of_mem_pieces hc _ _ q hq

/-- The chunks of a region follow each other without a gap and cover it, none crosses a multiple of
the chunk size, exactly the first is reported as head and exactly the last as last. A DMA of one byte
or more has exactly one header packet, the one for its lowest address. -/
theorem chunks_partition (a : DmaAction) (c id j turns : ℕ) (hc : isPowerOf2 c = true)
    (hb : a.addr + a.size + c < 2 ^ 64) (ht : a.size < turns) :
    ∃ g cs, ChunkGenerator.create a.addr a.size c = .ok g ∧ g.chunks turns = some cs ∧
      Tiles a.addr a.size (cs.map fun g => (g.addr, g.size)) ∧
      (∀ g ∈ cs, g.addr / c = (g.addr + g.size - 1) / c) ∧
      (∀ i g, cs[i]? = some g →
        (g.isHead = true ↔ i = 0) ∧ (g.last = true ↔ i + 1 = cs.length)) ∧
      (a.isDdio = true → 0 < a.size →
        ∃ p, (a.created id j cs).filter (·.isDdioHeader) = [p] ∧ p.addr = a.addr ∧
          ∀ q ∈ a.created id j cs, p.addr ≤ q.addr) := by
  have hpos := isPowerOf2_pos hc
  obtain ⟨g, cs, hg, hcs, hpieces, hmarked, hats⟩ :=
    ChunkGenerator.chunks_create (a := a.addr) (n := a.size) hc (by omega) (by omega) ht
  refine ⟨g, cs, hg, hcs, ?_, ?_, ?_, ?_⟩
  · rw [hpieces]
    exact tiles_pieces hpos _ _
  · intro g hg
    refine within_of_mem_pieces hpos a.addr a.size (g.addr, g.size) ?_
    rw [← hpieces]
    exact mem_map_of_mem hg
  · intro i g hi
    obtain ⟨hh, hl⟩ := hmarked i g hi
    rw [hh, hl]
    simp
  · intro hd hsize
    rw [created_eq hpieces hats]
    refine ⟨_, header_packets hpos hsize hd, rfl, ?_⟩
    exact le_of_mem_packets hpos

theorem chunks_partition_write :
    ∃ g cs, ChunkGenerator.create 48 80 64 = .ok g ∧ g.chunks 81 = some cs ∧
      Tiles 48 80 (cs.map fun g => (g.addr, g.size)) ∧
      ∃ p, ((DmaPort.writeAction 48 80).created 7 0 cs).filter (·.isDdioHeader) = [p] ∧
        p.addr = 48 := by
  obtain ⟨g, cs, hg, hcs, htiles, -, -, hhead⟩ :=
    chunks_partition (DmaPort.writeAction 48 80) 64 7 0 81 (by decide) (by decide) (by decide)
  obtain ⟨p, hp, haddr, -⟩ := hhead rfl (by decide)
  exact ⟨g, cs, hg, hcs, htiles, p, hp, haddr⟩

/-- A DMA of no bytes has no chunk, and in atomic mode no packet is sent. -/
theorem no_header_of_empty :
    (∃ g, ChunkGenerator.create 48 0 64 = .ok g ∧ g.chunks 1 = some [] ∧
      ((DmaPort.writeAction 48 0).created 7 0 []).filter (·.isDdioHeader) = []) ∧
    Ends ((DmaAtomic.fresh []).dma (DmaAtomic.giving none) false (DmaPort.writeAction 48 0))
      fun s => s.calls = 0 :=
  ⟨⟨_, rfl, rfl, rfl⟩, by decide⟩

end DmaAction

end Gem5
