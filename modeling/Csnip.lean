import Csnip.Lib.Memory
import Csnip.Lib.Cyclic
import Csnip.Lib.Machine
import Csnip.Rb.Basic
import Csnip.Rb.Ring
import Csnip.Rb.Spec
import Csnip.Rb.Peek
import Csnip.Rb.Api
import Csnip.Rb.Fifo
import Csnip.Rb.Stats
import Csnip.Rb.Regions
import Csnip.Rb.Float
import Csnip.Rb.Midi
import Csnip.Lib.LittleEndian
import Csnip.Lib.Packed
import Csnip.Rb.Image
import Csnip.Java.Agree
import Csnip.Rb.PeekAgree
import Csnip.Java.Peek
import Csnip.Spsc.Safety
import Csnip.Lib.Loop
import Csnip.Vector.Basic
import Csnip.Vector.Calls
import Csnip.Vector.Refine
import Csnip.Vector.Failing
import Csnip.Vector.Capacity
import Csnip.Lib.Outcome
import Csnip.Lib.Stdio
import Csnip.Lib.Riff
import Csnip.Wave.Basic
import Csnip.Wave.Scan
import Csnip.Wave.Markers
import Csnip.Wave.Output
import Csnip.Wave.Format
import Csnip.Wave.MarkerLines
import Csnip.Wave.Scanned
import Csnip.Wave.Written
import Csnip.Wave.Preserve
import Csnip.Rb.Incidents
import Csnip.Rb.Over
import Csnip.Lib.Partial
import Csnip.Rb.Search
import Csnip.Rb.FindByte
import Csnip.Rb.Deinterleave
import Csnip.Rb.Items
import Csnip.Rb.Exact
import Csnip.Cat.Drain
import Csnip.Lib.Mutex
import Csnip.Thread.SendUdp
import Csnip.Wave.Remark
import Csnip.Wave.MarkerTable
import Csnip.Rb.MidiContent
import Csnip.Wave.Boundaries
import Csnip.Lib.Shm
import Csnip.Blob.Blobit
import Csnip.Rb.Shared
import Csnip.Rb.SharedRuns
import Csnip.Tailf.WalkFile
import Csnip.Lib.Registers
import Csnip.Lib.MerkleDamgard
import Csnip.Hash.Message
import Csnip.Lib.Recurrence
import Csnip.Hash.Words
import Csnip.Lib.LeadingBits
import Csnip.Hash.Standards
import Csnip.Hash.Md5
import Csnip.Hash.Sha1
import Csnip.Hash.Sha2
import Csnip.Lib.Fair
import Csnip.Lib.Pipe
import Csnip.Cat.Copy
import Csnip.Spsc.Exclusive
import Csnip.Tailf.Follow
import Csnip.Rb.Members
import Csnip.Rb.Samples
import Csnip.Java.Mixed
import Csnip.Hexdump.Dump
import Csnip.Com.Relay
import Csnip.Blob.Stub
import Csnip.Wave.Faults
