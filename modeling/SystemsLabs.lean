import SystemsLabs.MmCodecProofs
import SystemsLabs.MmStateProofs
import SystemsLabs.MmLayoutProofs
import SystemsLabs.MmFreeListProofs
import SystemsLabs.MmBlocksProofs
import SystemsLabs.MmFindFitProofs
import SystemsLabs.MmOpsProofs
import SystemsLabs.MmCoalesceProofs
import SystemsLabs.MmMallocProofs
import SystemsLabs.MmReallocProofs
import SystemsLabs.MmReachProofs
import SystemsLabs.MmCheckheapProofs
import SystemsLabs.ProxyCacheProofs
import SystemsLabs.ProxyRefcountProofs
import SystemsLabs.ProxyLruProofs
import SystemsLabs.ProxyForwardProofs
import SystemsLabs.ProxyHeadersProofs
import SystemsLabs.CsimModelProofs
import SystemsLabs.CsimLruProofs
import SystemsLabs.CsimTraceProofs
import SystemsLabs.TransposeProofs
import SystemsLabs.DatalabIntProofs
import SystemsLabs.DatalabFloatFormat
import SystemsLabs.DatalabFloatProofs
