import Gem5.DmaReadFifo
import Gem5.Proofs.ChunkGenerator

/-!
# The bytes of the read FIFO

What is in the buffer are the bytes of the first of the addresses that are due, and the others are
those of the reads on their way that were not canceled, followed by what is left of the block.
-/

namespace Gem5

open Machine Bytes List

section Blocks

variable {a e m n : ℕ}

theorem length_blockAddrs : (blockAddrs a n).length = n := by simp [blockAddrs]

theorem addAddr_addAddr (a m n : ℕ) : addAddr (addAddr a m) n = addAddr a (m + n) := by
  unfold addAddr
  omega

theorem blockAddrs_add (a m n : ℕ) :
    blockAddrs a (m + n) = blockAddrs a m ++ blockAddrs (addAddr a m) n := by
  simp only [blockAddrs, range_add, map_append, map_map]
  congr 2
  funext x
  exact (addAddr_addAddr a m x).symm

theorem subAddr_addAddr_of_le (ha : a < 2 ^ 64) (he : e < 2 ^ 64) (hn : n ≤ subAddr e a) :
    subAddr e (addAddr a n) = subAddr e a - n := by
  unfold subAddr addAddr at *
  omega

theorem blockAddrs_split (ha : a < 2 ^ 64) (he : e < 2 ^ 64) (hn : n ≤ subAddr e a) :
    blockAddrs a (subAddr e a) =
      blockAddrs a n ++ blockAddrs (addAddr a n) (subAddr e (addAddr a n)) := by
  rw [subAddr_addAddr_of_le ha he hn, ← blockAddrs_add, Nat.add_sub_cancel' hn]

theorem subAddr_addAddr_self (ha : a < 2 ^ 64) (hn : n < 2 ^ 64) : subAddr (addAddr a n) a = n := by
  unfold subAddr addAddr
  omega

theorem subAddr_self (a : ℕ) : subAddr a a = 0 := by
  unfold subAddr
  omega

theorem intToAddr_of_lt (h : n < 2 ^ 31) : intToAddr n = n := by
  unfold intToAddr
  rw [if_pos (by omega)]
  omega

end Blocks

namespace DmaReadFifo

variable {f' : DmaReadFifo} {op : Op}

def live (es : List DmaDoneEvent) : List ℕ :=
  (es.map fun e => if e.canceled then [] else e.addrs).flatten

def unsent (f : DmaReadFifo) : List ℕ := blockAddrs f.nextAddr (subAddr f.endAddr f.nextAddr)

theorem live_append (es es' : List DmaDoneEvent) : live (es ++ es') = live es ++ live es' := by
  simp [live]

theorem live_cons (e : DmaDoneEvent) (es : List DmaDoneEvent) :
    live (e :: es) = (if e.canceled then [] else e.addrs) ++ live es :=
  rfl

theorem unsent_of_end {f : DmaReadFifo} (h : f.nextAddr = f.endAddr) : f.unsent = [] := by
  rw [unsent, h, subAddr_self]
  rfl

def bytesOf (es : List DmaDoneEvent) : ℕ := (es.map DmaDoneEvent.requestSize).sum

/-- The buffer is in step with what is due, where the reads on their way are `es`. -/
structure Ordered (mem : ℕ → Byte) (es : List DmaDoneEvent) (f : DmaReadFifo) : Prop where
  space : f.buffer.length + bytesOf es ≤ f.fifoSize
  due : ∃ held : List ℕ, f.buffer = held.map mem ∧ f.due = held ++ (live es ++ f.unsent)
  filled : ∀ e ∈ es, e.done = true → e.data = e.addrs.map mem
  sizes : ∀ e ∈ es, e.requestSize ≤ f.maxReqSize
  next : f.nextAddr < 2 ^ 64
  stop : f.endAddr < 2 ^ 64
  delivered : ∀ d ∈ f.delivered, d.2 = mem d.1

/-- What the reads and their completions leave alone. -/
structure SameRecord (f f' : DmaReadFifo) : Prop where
  due : f'.due = f.due
  delivered : f'.delivered = f.delivered
  fifoSize : f'.fifoSize = f.fifoSize
  maxReqSize : f'.maxReqSize = f.maxReqSize

namespace SameRecord

theorem refl (f : DmaReadFifo) : SameRecord f f := ⟨rfl, rfl, rfl, rfl⟩

theorem trans {f g h : DmaReadFifo} (hfg : SameRecord f g) (hgh : SameRecord g h) :
    SameRecord f h :=
  ⟨hgh.due.trans hfg.due, hgh.delivered.trans hfg.delivered, hgh.fifoSize.trans hfg.fifoSize,
    hgh.maxReqSize.trans hfg.maxReqSize⟩

end SameRecord

variable {mem : ℕ → Byte} {f : DmaReadFifo} {e : DmaDoneEvent} {es : List DmaDoneEvent}

theorem ordered_init (mem : ℕ → Byte) (size maxReqSize maxPending : ℕ) :
    Ordered mem [] (init size maxReqSize maxPending) where
  space := by simp [init, bytesOf]
  due := by
    refine ⟨[], rfl, ?_⟩
    rw [unsent_of_end rfl]
    rfl
  filled := by simp
  sizes := by simp
  next := by simp [init]
  stop := by simp [init]
  delivered := by simp [init]

namespace Ordered

theorem buffer_eq (hf : Ordered mem es f) : f.buffer = (f.due.take f.buffer.length).map mem := by
  obtain ⟨held, hb, hd⟩ := hf.due
  rw [hd, hb, length_map, take_left']
  rfl

theorem length_le (hf : Ordered mem es f) : f.buffer.length ≤ f.due.length := by
  obtain ⟨held, hb, hd⟩ := hf.due
  rw [hd, hb, length_map, length_append]
  omega

theorem withRequests (hf : Ordered mem es f) (pending : List DmaDoneEvent) (free : ℕ)
    (d : DrainState) :
    Ordered mem es { f with pendingRequests := pending, freeRequests := free, drainState := d } :=
  { hf with }

end Ordered

section Fill

variable {n : ℕ}

theorem sameRecord_sendRead (f : DmaReadFifo) (n : ℕ) : SameRecord f (f.sendRead n) :=
  ⟨rfl, rfl, rfl, rfl⟩

theorem pending_sendRead (f : DmaReadFifo) (n : ℕ) :
    (f.sendRead n).pendingRequests = f.pendingRequests ++ [⟨f.nextAddr, n, false, false, []⟩] :=
  rfl

theorem bytesOf_sendRead (f : DmaReadFifo) (n : ℕ) :
    bytesOf (f.sendRead n).pendingRequests = bytesOf f.pendingRequests + n := by
  simp [bytesOf, pending_sendRead]

theorem live_sendRead (hf : Ordered mem es f) (hn : n ≤ subAddr f.endAddr f.nextAddr) :
    live (f.sendRead n).pendingRequests ++ (f.sendRead n).unsent =
      live f.pendingRequests ++ f.unsent := by
  have hl : live [⟨f.nextAddr, n, false, false, []⟩] = blockAddrs f.nextAddr n := by
    rw [live_cons, if_neg Bool.false_ne_true]
    exact List.append_nil _
  rw [pending_sendRead, live_append, hl, append_assoc, unsent, unsent,
    blockAddrs_split hf.next hf.stop hn]
  rfl

theorem Ordered.sendRead (hf : Ordered mem f.pendingRequests f) (hm : n ≤ f.maxReqSize)
    (hn : n ≤ subAddr f.endAddr f.nextAddr)
    (hs : f.buffer.length + bytesOf f.pendingRequests + n ≤ f.fifoSize) :
    Ordered mem (f.sendRead n).pendingRequests (f.sendRead n) where
  space := by
    rwa [bytesOf_sendRead, ← Nat.add_assoc]
  due := by
    rw [live_sendRead hf hn]
    exact hf.due
  filled := by
    intro e he hd
    rcases mem_append.1 he with h | h
    · exact hf.filled e h hd
    · rw [mem_singleton.1 h] at hd
      simp at hd
  sizes := by
    intro e he
    rcases mem_append.1 he with h | h
    · exact hf.sizes e h
    · rwa [mem_singleton.1 h]
  next := Nat.mod_lt _ (by norm_num)
  stop := hf.stop
  delivered := hf.delivered

def Fills (mem : ℕ → Byte) (f f' : DmaReadFifo) : Prop :=
  Ordered mem f'.pendingRequests f' ∧ SameRecord f f' ∧ f'.buffer = f.buffer

theorem ends_fillLoop : ∀ (free : ℕ) {f : DmaReadFifo}, Ordered mem f.pendingRequests f →
    Ends (fillLoop free (bytesOf f.pendingRequests) f) (Fills mem f)
  | 0, f, hf => Ends.of_ok rfl ⟨hf.withRequests _ 0 _, ⟨rfl, rfl, rfl, rfl⟩, rfl⟩
  | free + 1, f, hf => by
    unfold fillLoop
    dsimp only
    split_ifs with h
    · exact Ends.of_ok rfl ⟨hf.withRequests _ (free + 1) _, ⟨rfl, rfl, rfl, rfl⟩, rfl⟩
    · have hm := Nat.min_le_left f.maxReqSize (subAddr f.endAddr f.nextAddr)
      have hs : f.buffer.length + bytesOf f.pendingRequests +
          min f.maxReqSize (subAddr f.endAddr f.nextAddr) ≤ f.fifoSize := by
        by_contra hlt
        exact h (Or.inr (Nat.lt_of_not_le hlt))
      have hrec := ends_fillLoop free (hf.sendRead hm (Nat.min_le_right _ _) hs)
      rw [bytesOf_sendRead] at hrec
      simp only [require, if_pos hm, ok_bind]
      refine hrec.mono ?_
      rintro f' ⟨hf', hsame, hbuf⟩
      exact ⟨hf', (sameRecord_sendRead f _).trans hsame, hbuf⟩

theorem ends_resumeFill (hf : Ordered mem f.pendingRequests f) :
    Ends f.resumeFill (Fills mem f) := by
  unfold resumeFill
  split_ifs
  · exact Ends.of_ok rfl ⟨hf, SameRecord.refl f, rfl⟩
  · exact ends_fillLoop f.freeRequests hf

end Fill

section Done

variable {index : ℕ}

theorem Ordered.finish (hf : Ordered mem (e :: es) f) (hd : e.done = true) :
    Ends (f.finish e) fun f' =>
      Ordered mem es f' ∧ SameRecord f f' ∧
        f'.buffer = f.buffer ++ if e.canceled then [] else e.data := by
  have hdata : e.data = e.addrs.map mem := hf.filled e mem_cons_self hd
  have hlen : e.data.length = e.requestSize := by
    rw [hdata, length_map, DmaDoneEvent.addrs, length_blockAddrs]
  have hspace : f.buffer.length + (e.requestSize + bytesOf es) ≤ f.fifoSize := hf.space
  have hfilled := fun e' he' => hf.filled e' (mem_cons_of_mem e he')
  have hsizes := fun e' he' => hf.sizes e' (mem_cons_of_mem e he')
  obtain ⟨held, hb, hdue⟩ := hf.due
  rw [live_cons] at hdue
  unfold DmaReadFifo.finish
  split_ifs with hc
  · rw [if_pos hc, nil_append] at hdue
    refine Ends.of_ok rfl ⟨⟨?_, ⟨held, hb, hdue⟩, hfilled, hsizes, hf.next, hf.stop, hf.delivered⟩,
      SameRecord.refl f, (List.append_nil _).symm⟩
    omega
  · rw [if_neg hc, append_assoc] at hdue
    have hw : f.write e.data = .ok { f with buffer := f.buffer ++ e.data } := by
      have hroom : ¬ f.buffer.length + e.data.length > f.fifoSize := by omega
      simp only [write, panicIf, if_neg hroom, ok_bind, pure, Except.pure]
    refine Ends.of_ok hw ⟨⟨?_, ⟨held ++ e.addrs, ?_, ?_⟩, hfilled, hsizes, hf.next, hf.stop,
      hf.delivered⟩, ⟨rfl, rfl, rfl, rfl⟩, rfl⟩
    · simp only [length_append]
      omega
    · rw [map_append, ← hb, hdata]
    · rwa [append_assoc]

def entering (es : List DmaDoneEvent) : List Byte :=
  ((es.takeWhile (·.done)).filter (!·.canceled)).flatMap (·.data)

theorem entering_cons (hd : e.done = true) :
    entering (e :: es) = (if e.canceled then [] else e.data) ++ entering es := by
  rcases hc : e.canceled with _ | _ <;> simp [entering, hd, hc]

theorem ends_handleLoop : ∀ (es : List DmaDoneEvent) {f : DmaReadFifo}, Ordered mem es f →
    Ends (handleLoop es f) fun f' =>
      Ordered mem f'.pendingRequests f' ∧ SameRecord f f' ∧ f'.buffer = f.buffer ++ entering es
  | [], f, hf =>
    Ends.of_ok rfl ⟨hf.withRequests [] _ _, ⟨rfl, rfl, rfl, rfl⟩, (List.append_nil _).symm⟩
  | e :: es, f, hf => by
    unfold handleLoop
    split_ifs with hd
    · refine (hf.finish hd).bind fun f' ⟨hf', hsame, hbuf⟩ => ?_
      have hrec := ends_handleLoop es (hf'.withRequests f'.pendingRequests (f'.freeRequests + 1)
        f'.drainState)
      refine hrec.mono fun f'' ⟨hf'', hsame', hbuf'⟩ => ?_
      refine ⟨hf'', hsame.trans { hsame' with }, ?_⟩
      rw [hbuf', hbuf, entering_cons hd, append_assoc]
    · refine Ends.of_ok rfl ⟨hf.withRequests (e :: es) _ _, ⟨rfl, rfl, rfl, rfl⟩, ?_⟩
      simp [entering, hd]

theorem Ordered.signalIfIdle (hf : Ordered mem f.pendingRequests f) :
    Fills mem f f.signalIfIdle := by
  unfold DmaReadFifo.signalIfIdle signalDrainDone
  split_ifs
  · exact ⟨hf.withRequests _ _ .drained, ⟨rfl, rfl, rfl, rfl⟩, rfl⟩
  · exact ⟨hf, SameRecord.refl f, rfl⟩
  · exact ⟨hf, SameRecord.refl f, rfl⟩

theorem map_complete {γ : Type} {g : DmaDoneEvent → γ}
    (he : es[index]? = some e) (hg : g (e.complete mem) = g e) :
    (es.set index (e.complete mem)).map g = es.map g := by
  obtain ⟨hi, hget⟩ := List.getElem?_eq_some_iff.1 he
  subst hget
  rw [List.map_set, hg, ← List.getElem_map g (h := by simpa using hi)]
  exact List.set_getElem_self _

theorem Ordered.setDone (hf : Ordered mem f.pendingRequests f)
    (he : f.pendingRequests[index]? = some e) :
    Ordered mem (f.setDone mem index e).pendingRequests (f.setDone mem index e) := by
  have hb : bytesOf (f.setDone mem index e).pendingRequests = bytesOf f.pendingRequests :=
    congrArg List.sum (map_complete he rfl)
  have hl : live (f.setDone mem index e).pendingRequests = live f.pendingRequests :=
    congrArg List.flatten (map_complete he rfl)
  refine ⟨?_, ?_, ?_, ?_, hf.next, hf.stop, hf.delivered⟩
  · rw [hb]
    exact hf.space
  · rw [hl]
    exact hf.due
  · intro e' he' hd
    rcases mem_or_eq_of_mem_set he' with h | rfl
    · exact hf.filled e' h hd
    · rfl
  · intro e' he'
    rcases mem_or_eq_of_mem_set he' with h | rfl
    · exact hf.sizes e' h
    · exact hf.sizes e (mem_of_getElem? he)

theorem ends_dmaDone (hf : Ordered mem f.pendingRequests f) :
    Ends f.dmaDone fun f' =>
      Ordered mem f'.pendingRequests f' ∧ SameRecord f f' ∧
        f'.buffer = f.buffer ++ entering f.pendingRequests := by
  unfold dmaDone handlePending
  rw [bind_assoc]
  refine (ends_handleLoop f.pendingRequests hf).bind fun g ⟨hg, hsame, hbuf⟩ => ?_
  obtain ⟨hi, hsame', hbuf'⟩ := hg.signalIfIdle
  rw [pure_bind]
  refine (ends_resumeFill hi).mono fun f' ⟨hf', hsame'', hbuf''⟩ => ?_
  refine ⟨hf', (hsame.trans hsame').trans hsame'', ?_⟩
  rw [hbuf'', hbuf', hbuf]

theorem ends_process (hmax : f.maxReqSize < 2 ^ 31)
    (hf : Ordered mem f.pendingRequests f) (he : f.pendingRequests[index]? = some e)
    (hd : e.done = false) :
    Ends (f.process mem index) fun f' =>
      Ordered mem f'.pendingRequests f' ∧ SameRecord f f' ∧
        f'.buffer = f.buffer ++ entering (f.setDone mem index e).pendingRequests := by
  have hsize := hf.sizes e (mem_of_getElem? he)
  have hint : intToAddr e.requestSize ≤ f.maxReqSize := by
    rwa [intToAddr_of_lt (by omega)]
  simp only [process, he, hd, Bool.false_eq_true, if_false, inBounds, if_pos hint, ok_bind]
  refine (ends_dmaDone (hf.setDone he)).mono fun f' ⟨hf', hsame, hbuf⟩ => ?_
  exact ⟨hf', { hsame with }, hbuf⟩

end Done

section Ops

variable {len start size : ℕ}

def asked (f : DmaReadFifo) : List ℕ := f.delivered.map Prod.fst ++ f.due

theorem SameRecord.asked {f : DmaReadFifo} (h : SameRecord f f') : f'.asked = f.asked := by
  rw [DmaReadFifo.asked, DmaReadFifo.asked, h.due, h.delivered]

theorem Ordered.stopFill (hf : Ordered mem f.pendingRequests f) :
    Ordered mem f.stopFill.pendingRequests f.stopFill := by
  have hb : bytesOf f.stopFill.pendingRequests = bytesOf f.pendingRequests := by
    simp [bytesOf, DmaReadFifo.stopFill, Function.comp_def, DmaDoneEvent.cancel]
  have hl : live f.stopFill.pendingRequests = [] := by
    simp [live, DmaReadFifo.stopFill, DmaDoneEvent.cancel]
  obtain ⟨held, hbuf, hdue⟩ := hf.due
  refine ⟨?_, ⟨held, hbuf, ?_⟩, ?_, ?_, hf.stop, hf.stop, hf.delivered⟩
  · rw [hb]
    exact hf.space
  · have ht : f.due.take f.buffer.length = held := by
      rw [hdue, hbuf, length_map, take_left']
      rfl
    rwa [hl, unsent_of_end rfl, List.append_nil, List.append_nil]
  · intro e he hd
    obtain ⟨e', he', rfl⟩ := mem_map.1 he
    exact hf.filled e' he' hd
  · intro e he
    obtain ⟨e', he', rfl⟩ := mem_map.1 he
    exact hf.sizes e' he'

theorem Ordered.flush (hf : Ordered mem f.pendingRequests f) :
    Ordered mem f.flush.pendingRequests f.flush := by
  obtain ⟨held, hbuf, hdue⟩ := hf.due
  refine { hf with space := ?_, due := ⟨[], rfl, ?_⟩ }
  · exact le_trans (Nat.add_le_add_right (Nat.zero_le _) _) hf.space
  · have ht : f.due.drop f.buffer.length = live f.pendingRequests ++ f.unsent := by
      rw [hdue, hbuf, length_map, drop_left']
      rfl
    rwa [nil_append]

theorem Ordered.delivered_read (hf : Ordered mem f.pendingRequests f)
    (hlen : len ≤ f.buffer.length) :
    (f.read len).delivered = f.delivered ++ (f.due.take len).map fun a => (a, mem a) := by
  have hb : f.buffer.take len = (f.due.take len).map mem := by
    rw [hf.buffer_eq, ← map_take, take_take, Nat.min_eq_left hlen]
  rw [map_prod_left_eq_zip, ← hb]
  rfl

theorem Ordered.asked_read (hf : Ordered mem f.pendingRequests f)
    (hlen : len ≤ f.buffer.length) : (f.read len).asked = f.asked := by
  have hd : (f.read len).due = f.due.drop len := rfl
  rw [asked, hf.delivered_read hlen, hd, map_append, map_map, append_assoc]
  simp only [Function.comp_def, map_id', take_append_drop]
  rfl

theorem Ordered.read (hf : Ordered mem f.pendingRequests f) (hlen : len ≤ f.buffer.length) :
    Ordered mem (f.read len).pendingRequests (f.read len) := by
  have hdel := hf.delivered_read hlen
  obtain ⟨held, hbuf, hdue⟩ := hf.due
  have hheld : len ≤ held.length := by
    rwa [hbuf, length_map] at hlen
  refine ⟨?_, ⟨held.drop len, ?_, ?_⟩, hf.filled, hf.sizes, hf.next, hf.stop, ?_⟩
  · refine le_trans (Nat.add_le_add_right ?_ _) hf.space
    exact (length_drop ..).trans_le (Nat.sub_le _ _)
  · have hb : f.buffer.drop len = (held.drop len).map mem := by rw [hbuf, map_drop]
    exact hb
  · have hd : f.due.drop len = held.drop len ++ (live f.pendingRequests ++ f.unsent) := by
      rw [hdue, drop_append_of_le_length hheld]
    exact hd
  · rw [hdel]
    intro d hd
    rcases mem_append.1 hd with h | h
    · exact hf.delivered d h
    · obtain ⟨a, -, rfl⟩ := mem_map.1 h
      rfl

theorem unsent_setBlock (hstart : start < 2 ^ 64) (hsize : size < 2 ^ 64) :
    (f.setBlock start size).unsent = blockAddrs start size :=
  congrArg (blockAddrs start) (subAddr_addAddr_self hstart hsize)

theorem Ordered.setBlock (hf : Ordered mem f.pendingRequests f) (he : f.nextAddr = f.endAddr)
    (hstart : start < 2 ^ 64) (hsize : size < 2 ^ 64) :
    Ordered mem (f.setBlock start size).pendingRequests (f.setBlock start size) := by
  obtain ⟨held, hbuf, hdue⟩ := hf.due
  refine { hf with due := ⟨held, hbuf, ?_⟩, next := hstart, stop := Nat.mod_lt _ (by norm_num) }
  have hd : (f.setBlock start size).due = f.due ++ blockAddrs start size := rfl
  rw [hd, hdue, unsent_of_end he, List.append_nil, append_assoc,
    unsent_setBlock hstart hsize]
  rfl

/-- What an operation makes of the FIFO. -/
structure Moves (mem : ℕ → Byte) (op : Op) (f f' : DmaReadFifo) : Prop where
  ordered : Ordered mem f'.pendingRequests f'
  fifoSize : f'.fifoSize = f.fifoSize
  maxReqSize : f'.maxReqSize = f.maxReqSize
  asked : f'.asked.Sublist (f.asked ++ op.asks)
  kept : op.Keeps → f'.asked = f.asked ++ op.asks

theorem Moves.of_eq {f : DmaReadFifo} (hf : Ordered mem f'.pendingRequests f')
    (hs : f'.fifoSize = f.fifoSize) (hm : f'.maxReqSize = f.maxReqSize)
    (ha : f'.asked = f.asked ++ op.asks) : Moves mem op f f' :=
  ⟨hf, hs, hm, ha ▸ List.Sublist.refl _, fun _ => ha⟩

theorem Moves.of_same {f : DmaReadFifo} (hf : Ordered mem f'.pendingRequests f')
    (hs : SameRecord f f') (ho : op.asks = []) : Moves mem op f f' := by
  refine Moves.of_eq hf hs.fifoSize hs.maxReqSize ?_
  rw [ho, List.append_nil, hs.asked]

theorem moves_startFill (hf : Ordered mem f.pendingRequests f) (he : f.nextAddr = f.endAddr)
    (hstart : start < 2 ^ 64) (hsize : size < 2 ^ 64) :
    Ends (f.startFill start size) (Moves mem (.startFill start size) f) := by
  have hend : f.atEndOfBlock = true := decide_eq_true he
  simp only [startFill, require, if_pos hend, ok_bind]
  refine (ends_resumeFill (hf.setBlock he hstart hsize)).mono ?_
  rintro f' ⟨hf', hsame, -⟩
  refine Moves.of_eq hf' hsame.fifoSize hsame.maxReqSize (hsame.asked.trans ?_)
  exact (append_assoc ..).symm

theorem ends_tryGet (hf : Ordered mem f.pendingRequests f) (hlen : len ≤ f.buffer.length) :
    Ends (f.tryGet len) fun r => r.1 = true ∧ Moves mem (.tryGet len) f r.2 ∧
      r.2.delivered = f.delivered ++ (f.due.take len).map fun a => (a, mem a) := by
  unfold tryGet
  rw [if_pos hlen]
  refine (ends_resumeFill (hf.read hlen)).bind fun f' ⟨hf', hsame, _⟩ => ?_
  refine Ends.of_ok rfl ⟨rfl, ?_, hsame.delivered.trans (hf.delivered_read hlen)⟩
  refine Moves.of_eq hf' hsame.fifoSize hsame.maxReqSize ?_
  rw [hsame.asked, hf.asked_read hlen]
  exact (List.append_nil _).symm

theorem tryGet_of_lt (hlen : f.buffer.length < len) : f.tryGet len = .ok (false, f) := by
  unfold tryGet
  rw [if_neg (by omega)]

theorem moves_tryGet (hf : Ordered mem f.pendingRequests f) :
    Ends (f.tryGet len) fun r => Moves mem (.tryGet len) f r.2 := by
  by_cases hlen : len ≤ f.buffer.length
  · exact (ends_tryGet hf hlen).mono fun r hr => hr.2.1
  · exact Ends.of_ok (tryGet_of_lt (by omega)) (Moves.of_same hf (SameRecord.refl f) rfl)

theorem moves_stopFill (hf : Ordered mem f.pendingRequests f) :
    Moves mem .stopFill f f.stopFill := by
  refine ⟨hf.stopFill, rfl, rfl, ?_, fun h => absurd rfl h.1⟩
  refine List.Sublist.trans ?_ (sublist_append_left _ _)
  exact List.Sublist.append_left (take_sublist _ _) _

theorem moves_flush (hf : Ordered mem f.pendingRequests f) : Moves mem .flush f f.flush := by
  refine ⟨hf.flush, rfl, rfl, ?_, fun h => absurd rfl h.2⟩
  refine List.Sublist.trans ?_ (sublist_append_left _ _)
  exact List.Sublist.append_left (drop_sublist _ _) _

end Ops

theorem step_moves (hmax : f.maxReqSize < 2 ^ 31)
    (hf : Ordered mem f.pendingRequests f) (h : step mem f op = .ok f') : Moves mem op f f' := by
  rcases op with ⟨start, size⟩ | _ | len | len | _ | index | _ | _
  · simp only [step] at h
    split_ifs at h with hb
    obtain ⟨_, hr, -⟩ := bind_ok.1 h
    have he : f.nextAddr = f.endAddr := of_decide_eq_true (require_ok.1 hr)
    exact (moves_startFill hf he hb.1 hb.2).result h
  · cases h
    exact moves_stopFill hf
  · obtain ⟨r, hr, hret⟩ := bind_ok.1 h
    cases hret
    exact (moves_tryGet hf).result hr
  · obtain ⟨r, hr, hret⟩ := bind_ok.1 h
    obtain ⟨_, -, rfl⟩ := bind_pure_ok.1 hret
    have hm := (moves_tryGet hf).result hr
    exact { hm with kept := fun _ => hm.kept ⟨nofun, nofun⟩ }
  · cases h
    exact moves_flush hf
  · have hp : f.process mem index = .ok f' := h
    rcases he : f.pendingRequests[index]? with _ | e
    · simp [process, he] at hp
    rcases hd : e.done with _ | _
    · obtain ⟨hf', hsame, -⟩ := (ends_process hmax hf he hd).result hp
      exact Moves.of_same hf' hsame rfl
    · simp [process, he, hd] at hp
  · cases h
    exact Moves.of_same (hf.withRequests _ _ _) ⟨rfl, rfl, rfl, rfl⟩ rfl
  · cases h
    exact Moves.of_same (hf.withRequests _ _ _) ⟨rfl, rfl, rfl, rfl⟩ rfl

/-- What holds after a run with the operations `ops`. -/
structure Served (mem : ℕ → Byte) (size maxReqSize : ℕ) (ops : List Op) (f : DmaReadFifo) :
    Prop where
  ordered : Ordered mem f.pendingRequests f
  fifoSize : f.fifoSize = size
  maxReqSize : f.maxReqSize = maxReqSize
  asked : f.asked.Sublist (ops.flatMap Op.asks)
  kept : (∀ op ∈ ops, op.Keeps) → f.asked = ops.flatMap Op.asks

theorem Served.step {size maxReqSize : ℕ} {ops : List Op}
    (hmax : maxReqSize < 2 ^ 31) (hf : Served mem size maxReqSize ops f)
    (h : step mem f op = .ok f') : Served mem size maxReqSize (ops ++ [op]) f' := by
  have hm := step_moves (hf.maxReqSize.trans_lt hmax) hf.ordered h
  have ha : (ops ++ [op]).flatMap Op.asks = ops.flatMap Op.asks ++ op.asks := by simp
  refine ⟨hm.ordered, hm.fifoSize.trans hf.fifoSize, hm.maxReqSize.trans hf.maxReqSize, ?_, ?_⟩
  · rw [ha]
    exact hm.asked.trans (List.Sublist.append_right hf.asked _)
  · intro hk
    rw [ha, hm.kept (hk op (by simp)), hf.kept fun o ho => hk o (by simp [ho])]

theorem served_run {size maxReqSize maxPending : ℕ} {ops : List Op} (hmax : maxReqSize < 2 ^ 31)
    (hrun : run (step mem) (init size maxReqSize maxPending) ops = .ok f) :
    Served mem size maxReqSize ops f := by
  refine run_hist (I := Served mem size maxReqSize) ?_ ?_ hrun
  · exact ⟨ordered_init mem size maxReqSize maxPending, rfl, rfl, List.Sublist.refl _,
      fun _ => rfl⟩
  · intro os u o u' _ hu ho
    exact hu.step hmax ho

theorem Ordered.buffer_of_idle (hf : Ordered mem f.pendingRequests f) (hi : f.isActive = false) :
    f.buffer = f.due.map mem := by
  simp only [isActive, Bool.not_eq_false', Bool.and_eq_true, List.isEmpty_iff] at hi
  obtain ⟨held, hb, hd⟩ := hf.due
  rw [hi.1, unsent_of_end (of_decide_eq_true hi.2)] at hd
  have hh : f.due = held := hd.trans (List.append_nil _)
  rw [hh, hb]

/-- Two blocks. The reads of the first are done in the other order. One of the reads of the second
is stopped. -/
def twoBlocks : List Op :=
  [.startFill 16 6, .complete 1, .complete 0, .tryGet 5, .startFill 64 8, .complete 0, .stopFill,
    .complete 0, .tryGet 2]

def SevenBytes (f : DmaReadFifo) : Prop :=
  f.delivered = [(16, 16), (17, 17), (18, 18), (19, 19), (20, 20), (21, 21), (64, 64)] ∧
    f.buffer.length = 2

instance (f : DmaReadFifo) : Decidable (SevenBytes f) := inferInstanceAs (Decidable (_ ∧ _))

theorem run_twoBlocks :
    Ends (run (step fun a => BitVec.ofNat 8 a) (init 8 3 2) twoBlocks) SevenBytes := by
  decide +kernel

end DmaReadFifo

end Gem5
