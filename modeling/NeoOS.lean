import NeoOS.Proof.PermRun
import NeoOS.Proof.Isolation
import NeoOS.Proof.TcpEof
import NeoOS.Proof.TlbFree
import NeoOS.Proof.TcpTable
import NeoOS.Proof.Pipe
import NeoOS.Proof.SigDeliver
import NeoOS.Proof.FdRefs
import NeoOS.Proof.PidAlloc
import NeoOS.Proof.ArgVector
import NeoOS.Proof.Futex
import NeoOS.Proof.Datagram
import NeoOS.Proof.HeapRun
import NeoOS.Proof.VfsRun
import NeoOS.Proof.SigWait
import NeoOS.Proof.Poll
import NeoOS.Proof.ExecThreads
import NeoOS.Proof.Spinlock
import NeoOS.Proof.Kvt
import NeoOS.Proof.Pthread
import NeoOS.Proof.Semaphore
import NeoOS.Proof.Ctty
import NeoOS.Proof.BlkChain
import NeoOS.Proof.FatDir
import NeoOS.Proof.Loopback
import NeoOS.Proof.ProcIter
import NeoOS.Proof.FatWalk
import NeoOS.Proof.Timeout
import NeoOS.Proof.FatTime
