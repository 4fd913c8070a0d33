import DisKverbs.PostMapping
import DisKverbs.WqHistory

namespace DisKverbs

open CellProg

/-- At most four SGEs, all of them inside live user MRs. -/
structure PostReq.Fits (req : PostReq) : Prop where
  numSge : req.wr.numSge = req.wr.sgList.length
  atMost : req.wr.sgList.length ≤ 4
  names : ∀ g ∈ req.wr.sgList, Names req.table g

def PostReq.bytes (req : PostReq) : List UInt64 :=
  req.wr.sgList.flatMap fun g => sgeBytes (req.table.mrOf g) g

theorem iovEntries_split (w : DisWqe) {m n : Nat} (h : m ≤ n) :
    ∃ es, w.iovEntries n = w.iovEntries m ++ es := by
  obtain ⟨k, rfl⟩ := Nat.exists_eq_add_of_le h
  refine ⟨(List.range k).map fun i => w.deref (w.sciMsg.iov.add (m + i)), ?_⟩
  simp only [DisWqe.iovEntries, List.range_add, List.map_append, List.map_map]
  rfl

theorem MapsSges.msgBytes {t : MrTable} {wr : IbWr} {w : DisWqe} {used : List (List Nat)}
    (h : MapsSges t wr w used) (hl : used.flatten.length ≤ w.sciMsg.iovlen) :
    w.msgBytes = wr.sgList.flatMap fun g => sgeBytes (t.mrOf g) g := by
  obtain ⟨es, he⟩ := iovEntries_split w hl
  have hlen := sgeBytes_lengths (t := t) wr.sgList
  rw [DisWqe.msgBytes, he, List.flatMap_append, h.bytes]
  exact List.take_left' (hlen.trans h.byteLen.symm)

section

variable {cfg : WqCfg} {e : Posted}

theorem posted_maps (hf : e.req.Fits)
    (hr : Runs (Owned e.owned) (cfg.body e.req) e.start (some e.used) e.wqe) :
    MapsSges e.req.table e.req.wr e.wqe e.used ∧
      e.used.flatten.length ≤ e.wqe.sciMsg.iovlen :=
  postOneBody_maps hf.numSge hf.atMost hf.names hr

theorem posted_message (hf : e.req.Fits)
    (hr : Runs (Owned e.owned) (cfg.body e.req) e.start (some e.used) e.wqe) :
    e.wqe.msgBytes = e.req.bytes := by
  obtain ⟨hm, hl⟩ := posted_maps hf hr
  exact hm.msgBytes hl

theorem posted_byteLen (hf : e.req.Fits)
    (hr : Runs (Owned e.owned) (cfg.body e.req) e.start (some e.used) e.wqe) :
    e.wqe.byteLen.toNat = e.req.bytes.length := by
  rw [(posted_maps hf hr).1.byteLen]
  exact (sgeBytes_lengths e.req.wr.sgList).symm

end

end DisKverbs
