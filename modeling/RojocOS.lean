import RojocOS.Fs.Proofs.ReadTurns
import RojocOS.Fs.Proofs.Resolve
import RojocOS.Fs.Proofs.CopyBlocks
import RojocOS.Kernel.Proofs.NewFile
import RojocOS.Kernel.Proofs.Ide
import RojocOS.Kernel.Proofs.Reserved
import RojocOS.Kernel.Proofs.PathLeak
import RojocOS.Kernel.Proofs.Cwd
import RojocOS.Fs.Proofs.NameLength
import RojocOS.Kernel.Proofs.Permissions
import RojocOS.Kernel.Proofs.PageCall
import RojocOS.Kernel.Proofs.PageRun
import RojocOS.Kernel.Proofs.DoubleFree
import RojocOS.Kernel.Proofs.StaleWait
import RojocOS.Kernel.Proofs.SlotReuse
import RojocOS.Kernel.Proofs.SelfCheck
import RojocOS.Kernel.Proofs.JoinPath
import RojocOS.Kernel.Proofs.ListBuffer
import RojocOS.Kernel.Proofs.ExecArgs
import RojocOS.Clib.Proofs.Split
import RojocOS.Clib.Proofs.Terminal
import RojocOS.Clib.Proofs.Numbers
import RojocOS.Kernel.Proofs.Entropy
